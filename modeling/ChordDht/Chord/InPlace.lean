/-
Where a parse writes.

`parse_request` cuts the strings of a request out of the connection buffer by writing a zero
byte behind each of them.  Every one of these bytes was found by a scan of a line, so it lies
in front of the end of that line, and the lines lie in front of the payload.  A parse that
does not consume a request writes nothing at all; one that does writes only among the bytes it
consumed.  The memory is arbitrary: nothing is assumed about what stands behind the `n` bytes
that have been received.
-/
import ChordDht.Chord.Http

namespace ChordDht.Chord

/-- The parts of a line end in front of `pos`. -/
def EndsBefore (pos : Nat) (parts : NonString × NonString) : Prop :=
  parts.1.stop < pos ∧ parts.2.stop < pos

theorem EndsBefore.mono {pos pos' : Nat} {parts : NonString × NonString} (h : EndsBefore pos parts)
    (hle : pos ≤ pos') : EndsBefore pos' parts :=
  ⟨Nat.lt_of_lt_of_le h.1 hle, Nat.lt_of_lt_of_le h.2 hle⟩

/-! ### The scans of a line -/

theorem parseRequestLine_ends {mem : Bytes} {buffer n : Nat} {parts : NonString × NonString}
    (h : parseRequestLine mem buffer n = some parts) : EndsBefore (buffer + n) parts := by
  unfold parseRequestLine at h
  cases hmethod : memchr (mem.drop buffer) 32 n with
  | none => simp [hmethod] at h
  | some k =>
      simp only [hmethod] at h
      cases huri : memchr (mem.drop (buffer + k + 1)) 32 (n - (k + 1)) with
      | none => simp [huri] at h
      | some l =>
          have hk := (memchr_eq_some hmethod).1
          have hl := (memchr_eq_some huri).1
          simp only [huri, Option.some.injEq] at h
          subst h
          constructor <;> (simp only [NonString.stop]; omega)

theorem parseHeader_ends {mem : Bytes} {buffer n : Nat} {parts : NonString × NonString}
    (h : parseHeader mem buffer n = some parts) : EndsBefore (buffer + n + crlf.length) parts := by
  unfold parseHeader at h
  cases hkey : memchr (mem.drop buffer) 58 n with
  | none => simp [hkey] at h
  | some k =>
      have hk := (memchr_eq_some hkey).1
      have hlength : crlf.length = 2 := rfl
      simp only [hkey, Option.some.injEq] at h
      subst h
      constructor <;> (simp only [NonString.stop]; omega)

/-- The header loop: what ended in front of where it stands ends in front of where it comes to. -/
theorem scanHeaders_ends {mem : Bytes} {n : Nat} : ∀ (fuel : Nat) {pos pos' : Nat}
    {headers headers' : List (NonString × NonString)},
    (∀ h ∈ headers, EndsBefore pos h) → scanHeaders mem n fuel pos headers = .returns (.complete headers' pos') →
      pos < pos' ∧ ∀ h ∈ headers', EndsBefore pos' h := by
  intro fuel
  induction fuel with
  | zero =>
      intro pos pos' headers headers' _ h
      cases h
  | succ fuel ih =>
      intro pos pos' headers headers' hends h
      have hlength : crlf.length = 2 := rfl
      rw [scanHeaders, Outcome.bind_eq_returns] at h
      obtain ⟨lineEnd, -, h⟩ := h
      by_cases hempty : lineEnd = some 0
      · rw [if_pos hempty, Outcome.pure_eq, Outcome.returns.injEq, HeaderScan.complete.injEq] at h
        obtain ⟨rfl, rfl⟩ := h
        exact ⟨by omega, fun h hh => (hends h hh).mono (by omega)⟩
      rw [if_neg hempty] at h
      by_cases hmany : httpMaxHeaders < headers.length
      · rw [if_pos hmany] at h
        cases h
      rw [if_neg hmany] at h
      cases lineEnd with
      | none => cases h
      | some k =>
          simp only at h
          cases hheader : parseHeader mem pos k with
          | none =>
              rw [hheader] at h
              cases h
          | some header =>
              rw [hheader] at h
              have hends' : ∀ h ∈ headers ++ [header], EndsBefore (pos + k + crlf.length) h := by
                intro h hh
                rcases List.mem_append.mp hh with hold | hnew
                · exact (hends h hold).mono (by omega)
                · rw [List.mem_singleton.mp hnew]
                  exact parseHeader_ends hheader
              obtain ⟨hpos, hall⟩ := ih hends' h
              exact ⟨by omega, hall⟩

/-! ### Zero bytes in memory -/

theorem writeZeros_cons (mem : Bytes) (i : Nat) (ends : List Nat) :
    writeZeros mem (i :: ends) = writeZeros (mem.set i 0) ends := rfl

theorem writeZeros_length (mem : Bytes) (ends : List Nat) : (writeZeros mem ends).length = mem.length := by
  induction ends generalizing mem with
  | nil => rfl
  | cons i ends ih => rw [writeZeros_cons, ih, List.length_set]

/-- Behind the last of them nothing changes. -/
theorem drop_writeZeros {k : Nat} {ends : List Nat} (h : ∀ i ∈ ends, i < k) (mem : Bytes) :
    (writeZeros mem ends).drop k = mem.drop k := by
  induction ends generalizing mem with
  | nil => rfl
  | cons i ends ih =>
      rw [writeZeros_cons, ih (fun j hj => h j (List.mem_cons_of_mem _ hj)),
        List.drop_set_of_lt (h i (List.mem_cons_self ..))]

theorem stops_lt {method uri : NonString} {headers : List (NonString × NonString)} {pos : Nat}
    (hline : EndsBefore pos (method, uri)) (hheaders : ∀ h ∈ headers, EndsBefore pos h) :
    ∀ i ∈ stops method uri headers, i < pos := by
  intro i hi
  rw [stops, List.mem_cons, List.mem_cons, List.mem_flatMap] at hi
  rcases hi with rfl | rfl | ⟨h, hh, hi⟩
  · exact hline.1
  · exact hline.2
  · rcases List.mem_pair.mp hi with rfl | rfl
    · exact (hheaders h hh).1
    · exact (hheaders h hh).2

/-! ### A whole parse -/

/-- What a parse that returns has done to the memory and to the request's URI: nothing, or it
consumed some of the received bytes and wrote only among these. -/
inductive Parse.Of (mem : Bytes) (n : Nat) (request : Request) (parse : Parse) : Prop
  | untouched (hret : parse.ret = 0 ∨ parse.ret = -1) (hbuffer : parse.buffer = mem)
      (huri : parse.request.uri = request.uri)
  | consumed (k : Nat) (hret : parse.ret = k) (hpos : 0 < k) (hle : k ≤ n)
      (hlength : parse.buffer.length = mem.length) (hdrop : parse.buffer.drop k = mem.drop k)
      (huri : ∃ start, parse.request.uri = some (cstr (parse.buffer.drop start)))

theorem finishRequest_of {mem : Bytes} {n pos : Nat} {request : Request} {method uri : NonString}
    {headers : List (NonString × NonString)} {parse : Parse} (hpos : 0 < pos)
    (hstops : ∀ i ∈ stops method uri headers, i < pos)
    (h : finishRequest mem n request method uri headers pos = .returns parse) :
    parse.Of mem n request := by
  have hnonneg : 0 ≤ (if lookupLength mem headers request.payloadLength < 0 then 0
      else lookupLength mem headers request.payloadLength) := by
    split_ifs <;> omega
  simp only [finishRequest] at h
  generalize (if lookupLength mem headers request.payloadLength < 0 then 0
    else lookupLength mem headers request.payloadLength) = length at h hnonneg
  split_ifs at h with hput hwait hcrowded
  · rw [Outcome.returns.injEq] at h
    subst h
    exact .untouched (Or.inr rfl) rfl rfl
  · rw [Outcome.returns.injEq] at h
    subst h
    exact .untouched (Or.inl rfl) rfl rfl
  · rw [Outcome.returns.injEq] at h
    subst h
    refine .consumed (pos + length.toNat) (by simp only; omega) (by omega) (by omega)
      (writeZeros_length ..) (drop_writeZeros ?_ mem) ⟨_, rfl⟩
    intro i hi
    have hi := hstops i hi
    omega

/-- **A parse that returns** leaves the memory as it is, or consumes received bytes and writes
only among these. -/
theorem parseRequest_of {mem : Bytes} {n : Nat} {request : Request} {parse : Parse}
    (h : parseRequest mem n request = .returns parse) : parse.Of mem n request := by
  have huntouched : ∀ ret : Int, ret = 0 ∨ ret = -1 → Parse.Of mem n request ⟨ret, mem, request⟩ :=
    fun ret hret => .untouched hret rfl rfl
  rw [parseRequest, Outcome.bind_eq_returns] at h
  obtain ⟨lineEnd, -, h⟩ := h
  cases lineEnd with
  | none => exact Outcome.returns.inj h ▸ huntouched 0 (Or.inl rfl)
  | some lineEnd =>
      simp only at h
      cases hline : parseRequestLine mem 0 lineEnd with
      | none =>
          rw [hline] at h
          exact Outcome.returns.inj h ▸ huntouched (-1) (Or.inr rfl)
      | some parts =>
          obtain ⟨method, uri⟩ := parts
          rw [hline] at h
          simp only [Outcome.bind_eq_returns] at h
          obtain ⟨scan, hscan, h⟩ := h
          cases scan with
          | incomplete => exact Outcome.returns.inj h ▸ huntouched 0 (Or.inl rfl)
          | malformed => exact Outcome.returns.inj h ▸ huntouched (-1) (Or.inr rfl)
          | complete headers pos =>
              obtain ⟨hpos, hheaders⟩ := scanHeaders_ends _ (by simp) hscan
              have hends : EndsBefore pos (method, uri) := (parseRequestLine_ends hline).mono (by omega)
              exact finishRequest_of (by omega) (stops_lt hends hheaders) h

/-- The URI of a parsed request stands in the memory that was parsed. -/
theorem parseRequest_uri_length {mem uri : Bytes} {n : Nat} {request : Request} {parse : Parse}
    (h : parseRequest mem n request = .returns parse) (hret : 0 < parse.ret) (huri : parse.request.uri = some uri) :
    uri.length ≤ mem.length := by
  cases parseRequest_of h with
  | untouched hret' => omega
  | consumed k _ _ _ hlength _ huri' =>
      obtain ⟨start, hstart⟩ := huri'
      rw [huri, Option.some.injEq] at hstart
      have hcstr := cstr_length_le (parse.buffer.drop start)
      rw [← hstart, List.length_drop] at hcstr
      omega

/-! ### The target -/

/-- The request target as it was received: what stands between the first two blanks. -/
def receivedTarget (mem : Bytes) : Bytes := ((mem.dropWhile (· != 32)).tail).takeWhile (· != 32)

/-- The memory around a byte that was found. -/
theorem memchr_split {mem : Bytes} {c : UInt8} {n k : Nat} (h : memchr mem c n = some k) :
    ∃ front back, mem = front ++ c :: back ∧ c ∉ front ∧ front.length = k := by
  obtain ⟨-, hbyte, hfront⟩ := memchr_eq_some h
  obtain ⟨hlt, hget⟩ := List.getElem?_eq_some_iff.mp hbyte
  refine ⟨mem.take k, mem.drop (k + 1), ?_, hfront, List.length_take_of_le (Nat.le_of_lt hlt)⟩
  rw [← hget, List.cons_getElem_drop_succ, List.take_append_drop]

theorem takeWhile_front {c : UInt8} {front : Bytes} (h : c ∉ front) (back : Bytes) :
    (front ++ c :: back).takeWhile (· != c) = front ∧ (front ++ c :: back).dropWhile (· != c) = c :: back := by
  have hall : ∀ b ∈ front, (b != c) = true := by
    intro b hb
    rw [bne_iff_ne]
    intro hc
    exact h (hc ▸ hb)
  constructor
  · rw [List.takeWhile_append_of_pos hall, List.takeWhile_cons_of_neg (by simp), List.append_nil]
  · rw [List.dropWhile_append_of_pos hall, List.dropWhile_cons_of_neg (by simp)]

/-- **The parts of a request line** stand around the first two blanks. -/
theorem parseRequestLine_target {mem : Bytes} {n : Nat} {method uri : NonString}
    (h : parseRequestLine mem 0 n = some (method, uri)) :
    ∃ front back, mem = front ++ 32 :: (receivedTarget mem ++ 32 :: back) ∧ method.stop = front.length ∧
      uri.start = front.length + 1 ∧ uri.stop = front.length + 1 + (receivedTarget mem).length := by
  unfold parseRequestLine at h
  cases hmethod : memchr (mem.drop 0) 32 n with
  | none =>
      rw [hmethod] at h
      cases h
  | some k =>
      simp only [hmethod] at h
      cases huri : memchr (mem.drop (0 + k + 1)) 32 (n - (k + 1)) with
      | none =>
          rw [huri] at h
          cases h
      | some l =>
          simp only [huri, Option.some.injEq, Prod.mk.injEq] at h
          obtain ⟨rfl, rfl⟩ := h
          obtain ⟨front, more, hmem, hfront, rfl⟩ := memchr_split hmethod
          rw [List.drop_zero] at hmem
          have hdrop : mem.drop (0 + front.length + 1) = more := by
            rw [hmem, Nat.zero_add, List.drop_length_add_append]
            rfl
          rw [hdrop] at huri
          obtain ⟨target, back, rfl, htarget, rfl⟩ := memchr_split huri
          have hreceived : receivedTarget mem = target := by
            rw [receivedTarget, hmem, (takeWhile_front hfront _).2, List.tail_cons, (takeWhile_front htarget _).1]
          refine ⟨front, back, by rw [hreceived]; exact hmem, by simp [NonString.stop], by simp, ?_⟩
          rw [hreceived]
          simp [NonString.stop]

/-- The names and values that the header loop finds end behind the place it starts from. -/
theorem scanHeaders_behind {mem : Bytes} {n start : Nat} : ∀ (fuel : Nat) {pos pos' : Nat}
    {headers headers' : List (NonString × NonString)}, start ≤ pos →
    (∀ h ∈ headers, start ≤ h.1.stop ∧ start ≤ h.2.stop) →
    scanHeaders mem n fuel pos headers = .returns (.complete headers' pos') →
      ∀ h ∈ headers', start ≤ h.1.stop ∧ start ≤ h.2.stop := by
  intro fuel
  induction fuel with
  | zero =>
      intro pos pos' headers headers' _ _ h
      cases h
  | succ fuel ih =>
      intro pos pos' headers headers' hpos hall h
      rw [scanHeaders, Outcome.bind_eq_returns] at h
      obtain ⟨lineEnd, -, h⟩ := h
      by_cases hempty : lineEnd = some 0
      · rw [if_pos hempty, Outcome.pure_eq, Outcome.returns.injEq, HeaderScan.complete.injEq] at h
        rw [← h.1]
        exact hall
      rw [if_neg hempty] at h
      by_cases hmany : httpMaxHeaders < headers.length
      · rw [if_pos hmany] at h
        cases h
      rw [if_neg hmany] at h
      cases lineEnd with
      | none => cases h
      | some k =>
          simp only at h
          cases hheader : parseHeader mem pos k with
          | none =>
              rw [hheader] at h
              cases h
          | some header =>
              rw [hheader] at h
              refine ih (by omega) ?_ h
              intro h' hh
              rcases List.mem_append.mp hh with hold | hnew
              · exact hall h' hold
              · rw [List.mem_singleton.mp hnew]
                unfold parseHeader at hheader
                cases hkey : memchr (mem.drop pos) 58 k with
                | none => simp [hkey] at hheader
                | some i =>
                    simp only [hkey, Option.some.injEq] at hheader
                    rw [← hheader]
                    constructor <;> (simp only [NonString.stop]; omega)

/-- In front of the first of them nothing changes. -/
theorem take_writeZeros {k : Nat} {ends : List Nat} (h : ∀ i ∈ ends, k ≤ i) (mem : Bytes) :
    (writeZeros mem ends).take k = mem.take k := by
  induction ends generalizing mem with
  | nil => rfl
  | cons i ends ih =>
      rw [writeZeros_cons, ih (fun j hj => h j (List.mem_cons_of_mem _ hj)),
        List.take_set_of_le (h i (List.mem_cons_self ..))]

/-- The target, once a zero byte is written in the place of each blank. -/
theorem cstr_target (front target back : Bytes) {ends : List Nat}
    (hends : ∀ i ∈ ends, front.length + 1 + target.length + 1 ≤ i) :
    cstr ((writeZeros (front ++ 32 :: (target ++ 32 :: back))
      (front.length :: (front.length + 1 + target.length) :: ends)).drop (front.length + 1)) = cstr target := by
  have hfirst : (front ++ 32 :: (target ++ 32 :: back)).set front.length 0
      = (front ++ 0 :: target) ++ 32 :: back := by
    rw [List.set_append_right _ _ (Nat.le_refl _), Nat.sub_self, List.set_cons_zero]
    simp
  have hplace : front.length + 1 + target.length = (front ++ 0 :: target).length := by
    rw [List.length_append, List.length_cons]
    omega
  have hsecond : ((front ++ 0 :: target) ++ 32 :: back).set (front.length + 1 + target.length) 0
      = (front ++ 0 :: (target ++ [0])) ++ back := by
    rw [hplace, List.set_append_right _ _ (Nat.le_refl _), Nat.sub_self, List.set_cons_zero]
    simp
  rw [writeZeros_cons, writeZeros_cons, hfirst, hsecond]
  have htake := take_writeZeros hends ((front ++ 0 :: (target ++ [0])) ++ back)
  have hlength : front.length + 1 + target.length + 1 = (front ++ 0 :: (target ++ [0])).length := by
    simp only [List.length_append, List.length_cons, List.length_nil]
    omega
  rw [hlength, List.take_left] at htake
  have hsplit := List.take_append_drop (front ++ 0 :: (target ++ [0])).length
    (writeZeros ((front ++ 0 :: (target ++ [0])) ++ back) ends)
  rw [htake] at hsplit
  rw [← hsplit, List.append_assoc, List.drop_length_add_append]
  show cstr ((target ++ [0]) ++ _) = _
  rw [List.append_assoc, List.singleton_append, cstr_front]

/-- The URI of a request that is consumed is read where the request line has it. -/
theorem finishRequest_uri {mem : Bytes} {n pos : Nat} {request : Request} {method uri : NonString}
    {headers : List (NonString × NonString)} {parse : Parse}
    (h : finishRequest mem n request method uri headers pos = .returns parse) (hret : 0 < parse.ret) :
    parse.request.uri = some (cstr ((writeZeros mem (stops method uri headers)).drop uri.start)) := by
  simp only [finishRequest] at h
  generalize (if lookupLength mem headers request.payloadLength < 0 then 0
    else lookupLength mem headers request.payloadLength) = length at h
  split_ifs at h with hput hwait hcrowded
  · rw [← Outcome.returns.inj h] at hret
    exact absurd (show (0 : Int) < -1 from hret) (by decide)
  · rw [← Outcome.returns.inj h] at hret
    exact absurd hret (Int.lt_irrefl 0)
  · rw [← Outcome.returns.inj h]

/-- **The URI of a request that is consumed** is the target as it was received, up to its first
zero byte. -/
theorem parseRequest_target {mem : Bytes} {n : Nat} {request : Request} {parse : Parse}
    (h : parseRequest mem n request = .returns parse) (hpos : 0 < parse.ret) :
    parse.request.uri = some (cstr (receivedTarget mem)) := by
  rw [parseRequest, Outcome.bind_eq_returns] at h
  obtain ⟨lineEnd, -, h⟩ := h
  cases lineEnd with
  | none =>
      rw [← Outcome.returns.inj h] at hpos
      exact absurd hpos (Int.lt_irrefl 0)
  | some lineEnd =>
      simp only at h
      cases hline : parseRequestLine mem 0 lineEnd with
      | none =>
          rw [hline] at h
          rw [← Outcome.returns.inj h] at hpos
          exact absurd (show (0 : Int) < -1 from hpos) (by decide)
      | some parts =>
          obtain ⟨method, uri⟩ := parts
          rw [hline] at h
          simp only [Outcome.bind_eq_returns] at h
          obtain ⟨scan, hscan, h⟩ := h
          cases scan with
          | incomplete =>
              rw [← Outcome.returns.inj h] at hpos
              exact absurd hpos (Int.lt_irrefl 0)
          | malformed =>
              rw [← Outcome.returns.inj h] at hpos
              exact absurd (show (0 : Int) < -1 from hpos) (by decide)
          | complete headers pos =>
              obtain ⟨front, back, hmem, hmethod, hstart, hstop⟩ := parseRequestLine_target hline
              have huri := (parseRequestLine_ends hline).2
              rw [hstop, Nat.zero_add] at huri
              have hbehind := scanHeaders_behind _ (Nat.le_refl (lineEnd + crlf.length)) (by simp) hscan
              have hends : ∀ i ∈ headers.flatMap (fun h => [h.1.stop, h.2.stop]),
                  front.length + 1 + (receivedTarget mem).length + 1 ≤ i := by
                intro i hi
                rw [List.mem_flatMap] at hi
                obtain ⟨header, hheader, hi⟩ := hi
                obtain ⟨hkey, hvalue⟩ := hbehind header hheader
                rcases List.mem_pair.mp hi with rfl | rfl <;> omega
              have hcstr := cstr_target front (receivedTarget mem) back hends
              rw [← hmem] at hcstr
              have hread : cstr ((writeZeros mem (stops method uri headers)).drop uri.start)
                  = cstr (receivedTarget mem) := by
                rw [stops, hmethod, hstop, hstart]
                exact hcstr
              rw [finishRequest_uri h hpos, hread]

end ChordDht.Chord
