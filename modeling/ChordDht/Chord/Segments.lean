/-
How TCP cuts the stream.

`recv` hands over the stream in pieces that have nothing to do with requests.  After
each piece the node works off the requests that are all there and keeps the beginning
of the next one at the front of its buffer.  `serveCut` is that on the level of
requests; `serveSegments_cut` says that the connection handling refines it, and
`serveCut_iff` that it comes to the same as serving the requests one after the other,
provided that no piece ends between a carriage return and its line feed in the head of
a request that is reached.

That proviso is exact, and it is the one thing that goes wrong: `memstr` finds the
carriage return, does not find the line feed behind it, and never moves on.
-/
import ChordDht.Chord.Pipeline

namespace ChordDht.Chord

open Outcome Trace

/-! ### Segments -/

/-- A connection that receives these segments, one `handle_connection` for each, until
it is closed. -/
def serveSegments : Node → Connection → List Bytes → Outcome (List Packet)
  | _, _, [] => .returns []
  | node, state, segment :: segments => do
      let handled ← handleConnection node state segment
      if handled.cont then
        let packets ← serveSegments handled.node handled.state segments
        return handled.packets ++ packets
      else return handled.packets

/-- The connection comes to an end, with the requests parsed and the replies sent as
when each request comes in one segment; and the requests parsed are those of the stream. -/
def SameAsWhole (node : Node) (rs : List ClientRequest) (segments : List Bytes) : Prop :=
  ∃ packets whole, serveSegments node connectionSetup segments = .returns packets ∧
    serveSegments node connectionSetup (rs.map fun r => r.wire) = .returns whole ∧
    answered packets = answered whole ∧
    (answered packets).map Exchange.fields = (reached rs).map ClientRequest.fields

/-- The line that is taken for `Content-Length` is not blank, if there is one. -/
def ClientRequest.LengthInLine (r : ClientRequest) : Prop :=
  ∀ h ∈ r.headers.find? Header.announces, ∃ b ∈ h.value, isSpace b = false

/-- Cut there, the stream is torn in the head of a request that is reached. -/
def TornAt : List ClientRequest → Nat → Prop
  | [], _ => False
  | r :: rs, k =>
      if k < r.wire.length then Torn r.head k else r.closes = false ∧ TornAt rs (k - r.wire.length)

instance decidableTornAt : ∀ (rs : List ClientRequest) (k : Nat), Decidable (TornAt rs k)
  | [], _ => .isFalse id
  | r :: rs, k =>
      have := decidableTornAt rs (k - r.wire.length)
      inferInstanceAs (Decidable (if k < r.wire.length then Torn r.head k
        else r.closes = false ∧ TornAt rs (k - r.wire.length)))

/-- The same on the level of requests: `k` bytes are kept, and pieces of these lengths come in. -/
def serveCut : Node → List ClientRequest → Nat → List Nat → Outcome (List Exchange)
  | _, _, _, [] => .returns []
  | node, rs, k, n :: ns => do
      let c ← consume node rs (k + n)
      if c.closed then return c.exchanges
      else
        let exchanges ← serveCut c.node c.rest (k + n - c.used) ns
        return c.exchanges ++ exchanges

/-- None of the cuts tears the stream. -/
def Untorn (rs : List ClientRequest) : Nat → List Nat → Prop
  | _, [] => True
  | k, n :: ns => ¬ TornAt rs (k + n) ∧ Untorn rs (k + n) ns

/-! ### What a pass leaves -/

theorem stream_cons (r : ClientRequest) (rs : List ClientRequest) :
    stream (r :: rs) = r.wire ++ stream rs := List.flatMap_cons

theorem stream_append (rs rs' : List ClientRequest) : stream (rs ++ rs') = stream rs ++ stream rs' :=
  List.flatMap_append

/-- The `k` bytes that are kept are not a whole request. -/
def Waiting (rs : List ClientRequest) (k : Nat) : Prop := ∀ r ∈ rs.head?, k < r.wire.length

/-- **A pass that leaves the connection open** has served some requests, which did not
close it, and leaves the others. -/
theorem consume_open : ∀ (rs : List ClientRequest) {node : Node} {n : Nat} {c : Consumed},
    n ≤ (stream rs).length → consume node rs n = .returns c → c.closed = false →
      ∃ served, rs = served ++ c.rest ∧ (stream served).length = c.used ∧ c.used ≤ n ∧
        (∀ r ∈ served, r.closes = false) ∧ Waiting c.rest (n - c.used) ∧
        serveAll node rs = (do
          let exchanges ← serveAll c.node c.rest
          return c.exchanges ++ exchanges) := by
  intro rs
  induction rs with
  | nil =>
      intro node n c _ h _
      rw [consume, Outcome.returns.injEq] at h
      subst h
      exact ⟨[], rfl, rfl, Nat.zero_le _, by simp, by simp [Waiting], rfl⟩
  | cons r rs ih =>
      intro node n c hn h hopen
      rw [consume] at h
      by_cases hpart : n < r.wire.length
      · rw [if_pos hpart] at h
        split at h
        · cases h
        · rw [Outcome.returns.injEq] at h
          subst h
          refine ⟨[], rfl, rfl, Nat.zero_le _, by simp, ?_, ?_⟩
          · intro r' hr'
            rw [← Option.some.inj hr']
            exact hpart
          · simp only [List.nil_append]
            cases serveAll node (r :: rs) <;> rfl
      · rw [if_neg hpart] at h
        obtain ⟨answer, hanswer, h⟩ := bind_eq_returns.mp h
        cases hcloses : r.closes with
        | true =>
            rw [hcloses, if_pos rfl, pure_eq, Outcome.returns.injEq] at h
            subst h
            cases hopen
        | false =>
            rw [hcloses, if_neg (by decide)] at h
            obtain ⟨c', hc', h⟩ := bind_eq_returns.mp h
            rw [pure_eq, Outcome.returns.injEq] at h
            subst h
            rw [stream_cons, List.length_append] at hn
            obtain ⟨served, hsplit, hused, hle, hnone, hwait, hall⟩ := ih (by omega) hc' hopen
            refine ⟨r :: served, by rw [hsplit]; rfl, ?_, ?_, ?_, ?_, ?_⟩
            · rw [stream_cons, List.length_append, hused]
            · show r.wire.length + c'.used ≤ n
              omega
            · intro r' hr'
              rcases List.mem_cons.mp hr' with rfl | hr'
              · exact hcloses
              · exact hnone r' hr'
            · show Waiting c'.rest (n - (r.wire.length + c'.used))
              rwa [← Nat.sub_sub]
            · rw [serveAll, hanswer, returns_bind, hcloses, if_neg (by decide), hall]
              cases serveAll c'.node c'.rest <;> rfl

/-- **A pass that closes the connection** has served all that is reached. -/
theorem consume_closed : ∀ (rs : List ClientRequest) {node : Node} {n : Nat} {c : Consumed},
    consume node rs n = .returns c → c.closed = true →
      serveAll node rs = .returns c.exchanges ∧ ∀ k, n ≤ k → ¬ TornAt rs k := by
  intro rs
  induction rs with
  | nil =>
      intro node n c h hclosed
      rw [consume, Outcome.returns.injEq] at h
      subst h
      cases hclosed
  | cons r rs ih =>
      intro node n c h hclosed
      rw [consume] at h
      by_cases hpart : n < r.wire.length
      · rw [if_pos hpart] at h
        split at h
        · cases h
        · rw [Outcome.returns.injEq] at h
          subst h
          cases hclosed
      · rw [if_neg hpart] at h
        obtain ⟨answer, hanswer, h⟩ := bind_eq_returns.mp h
        rw [serveAll, hanswer, returns_bind]
        cases hcloses : r.closes with
        | true =>
            rw [hcloses, if_pos rfl, pure_eq, Outcome.returns.injEq] at h
            subst h
            refine ⟨rfl, ?_⟩
            intro k hk
            rw [TornAt, if_neg (by omega), hcloses]
            rintro ⟨hc, _⟩
            cases hc
        | false =>
            rw [hcloses, if_neg (by decide)] at h
            obtain ⟨c', hc', h⟩ := bind_eq_returns.mp h
            rw [pure_eq, Outcome.returns.injEq] at h
            subst h
            obtain ⟨hall, hnot⟩ := ih hc' hclosed
            refine ⟨?_, ?_⟩
            · rw [if_neg (by decide), hall]
              rfl
            · intro k hk
              rw [TornAt, if_neg (by omega)]
              exact fun hc => hnot (k - r.wire.length) (by omega) hc.2

/-- A pass over a torn stream does not return. -/
theorem consume_torn : ∀ (rs : List ClientRequest) {node : Node} {n : Nat}, TornAt rs n →
    ∀ c, consume node rs n ≠ .returns c := by
  intro rs
  induction rs with
  | nil => intro node n htorn; exact htorn.elim
  | cons r rs ih =>
      intro node n htorn c h
      rw [TornAt] at htorn
      rw [consume] at h
      by_cases hpart : n < r.wire.length
      · rw [if_pos hpart] at htorn h
        rw [if_pos htorn] at h
        cases h
      · rw [if_neg hpart] at htorn h
        obtain ⟨answer, -, h⟩ := bind_eq_returns.mp h
        rw [htorn.1, if_neg (by decide)] at h
        obtain ⟨c', hc', -⟩ := bind_eq_returns.mp h
        exact ih htorn.2 c' hc'

/-- A pass over a stream that is not torn returns if serving the requests does. -/
theorem consume_returns : ∀ (rs : List ClientRequest) {node : Node} {n : Nat} {out : List Exchange},
    ¬ TornAt rs n → serveAll node rs = .returns out → ∃ c, consume node rs n = .returns c := by
  intro rs
  induction rs with
  | nil => intro node n out _ _; exact ⟨_, rfl⟩
  | cons r rs ih =>
      intro node n out hnot hout
      rw [TornAt] at hnot
      rw [consume]
      by_cases hpart : n < r.wire.length
      · rw [if_pos hpart] at hnot ⊢
        rw [if_neg hnot]
        exact ⟨_, rfl⟩
      · rw [if_neg hpart] at hnot ⊢
        rw [serveAll] at hout
        obtain ⟨answer, hanswer, hout⟩ := bind_eq_returns.mp hout
        rw [hanswer, returns_bind]
        cases hcloses : r.closes with
        | true => exact ⟨_, rfl⟩
        | false =>
            rw [hcloses, if_neg (by decide)] at hout
            obtain ⟨exchanges, hex, -⟩ := bind_eq_returns.mp hout
            obtain ⟨c, hc⟩ := ih (fun ht => hnot ⟨hcloses, ht⟩) hex
            rw [if_neg (by decide), hc]
            exact ⟨_, rfl⟩

/-! ### Cuts -/

/-- Behind requests that do not close, the stream is torn where the rest of it is. -/
theorem tornAt_append : ∀ (served : List ClientRequest) {rs : List ClientRequest} {k : Nat},
    (∀ r ∈ served, r.closes = false) → (stream served).length ≤ k →
      (TornAt (served ++ rs) k ↔ TornAt rs (k - (stream served).length)) := by
  intro served
  induction served with
  | nil => intro rs k _ _; exact Iff.rfl
  | cons r served ih =>
      intro rs k hnone hk
      rw [stream_cons, List.length_append] at hk ⊢
      rw [List.cons_append, TornAt, if_neg (by omega), hnone r (List.mem_cons_self ..),
        ih (fun r' hr' => hnone r' (List.mem_cons_of_mem _ hr')) (by omega), Nat.sub_sub]
      simp

theorem untorn_append {served rs : List ClientRequest} (hnone : ∀ r ∈ served, r.closes = false) :
    ∀ (ns : List Nat) {k : Nat}, (stream served).length ≤ k →
      (Untorn (served ++ rs) k ns ↔ Untorn rs (k - (stream served).length) ns) := by
  intro ns
  induction ns with
  | nil => intro k _; exact Iff.rfl
  | cons n ns ih =>
      intro k hk
      have hshift : k - (stream served).length + n = k + n - (stream served).length := by omega
      rw [Untorn, Untorn, hshift, tornAt_append served hnone (by omega), ih (by omega)]

theorem untorn_of_forall {rs : List ClientRequest} : ∀ (ns : List Nat) {k : Nat},
    (∀ m, k ≤ m → ¬ TornAt rs m) → Untorn rs k ns := by
  intro ns
  induction ns with
  | nil => intro k _; trivial
  | cons n ns ih =>
      intro k h
      exact ⟨h (k + n) (Nat.le_add_right _ _), ih fun m hm => h m (by omega)⟩

/-- No cut of the stream into these segments tears it. -/
theorem untorn_iff {rs : List ClientRequest} : ∀ (segments : List Bytes) {k : Nat}, ¬ TornAt rs k →
    (Untorn rs k (segments.map List.length) ↔ ∀ before after, segments = before ++ after →
      ¬ TornAt rs (k + before.flatten.length)) := by
  intro segments
  induction segments with
  | nil =>
      intro k hk
      constructor
      · intro _ before after hsplit
        rw [(List.append_eq_nil_iff.mp hsplit.symm).1]
        exact hk
      · intro _
        trivial
  | cons segment segments ih =>
      intro k hk
      rw [List.map_cons, Untorn]
      constructor
      · rintro ⟨hnot, hrest⟩ before after hsplit
        cases before with
        | nil => exact hk
        | cons s before =>
            rw [List.cons_append, List.cons.injEq] at hsplit
            obtain ⟨rfl, hsplit⟩ := hsplit
            rw [List.flatten_cons, List.length_append, ← Nat.add_assoc]
            exact (ih hnot).mp hrest before after hsplit
      · intro hall
        have hnot : ¬ TornAt rs (k + segment.length) := by
          have h := hall [segment] segments rfl
          rwa [List.flatten_cons, List.flatten_nil, List.append_nil] at h
        refine ⟨hnot, (ih hnot).mpr ?_⟩
        intro before after hsplit
        have h := hall (segment :: before) after (by rw [hsplit]; rfl)
        rwa [List.flatten_cons, List.length_append, ← Nat.add_assoc] at h

/-! ### Cutting makes no difference -/

/-- **On the level of requests**, serving a cut stream is serving the requests one after
the other, exactly if no cut tears it. -/
theorem serveCut_iff : ∀ (ns : List Nat) {node : Node} {rs : List ClientRequest} {k : Nat}
    {out : List Exchange}, Waiting rs k → k + ns.sum = (stream rs).length →
      (serveCut node rs k ns = .returns out ↔ serveAll node rs = .returns out ∧ Untorn rs k ns) := by
  intro ns
  induction ns with
  | nil =>
      intro node rs k out hwait hsum
      have hrs : rs = [] := by
        cases rs with
        | nil => rfl
        | cons r rs =>
            have hk := hwait r rfl
            rw [stream_cons, List.length_append, List.sum_nil] at hsum
            omega
      subst hrs
      rw [serveCut, serveAll]
      exact ⟨fun h => ⟨h, trivial⟩, fun h => h.1⟩
  | cons n ns ih =>
      intro node rs k out hwait hsum
      rw [List.sum_cons] at hsum
      rw [serveCut, Untorn]
      by_cases htorn : TornAt rs (k + n)
      · constructor
        · intro h
          obtain ⟨c, hc, -⟩ := bind_eq_returns.mp h
          exact absurd hc (consume_torn rs htorn c)
        · rintro ⟨_, hnot, _⟩
          exact absurd htorn hnot
      · cases hc : consume node rs (k + n) with
        | returns c =>
            rw [returns_bind]
            cases hclosed : c.closed with
            | true =>
                obtain ⟨hall, hnot⟩ := consume_closed rs hc hclosed
                have huntorn : Untorn rs (k + n) ns := untorn_of_forall ns hnot
                rw [if_pos rfl, pure_eq, hall]
                exact ⟨fun h => ⟨h, htorn, huntorn⟩, fun h => h.1⟩
            | false =>
                obtain ⟨served, hsplit, hused, hle, hnone, hwait', hall⟩ :=
                  consume_open rs (by omega) hc hclosed
                have hstream : (stream rs).length = c.used + (stream c.rest).length := by
                  rw [hsplit, stream_append, List.length_append, hused]
                have hrest := @ih c.node c.rest (k + n - c.used) (out.drop c.exchanges.length) hwait'
                  (by omega)
                have huntorn : Untorn rs (k + n) ns ↔ Untorn c.rest (k + n - c.used) ns := by
                  have h := @untorn_append served c.rest hnone ns (k + n) (by omega)
                  rwa [← hsplit, hused] at h
                rw [if_neg (by decide), hall, huntorn]
                constructor
                · intro h
                  obtain ⟨more, hmore, h⟩ := bind_eq_returns.mp h
                  rw [pure_eq, Outcome.returns.injEq] at h
                  rw [← h, List.drop_left] at hrest
                  obtain ⟨hserve, hu⟩ := hrest.mp hmore
                  rw [hserve, ← h]
                  exact ⟨rfl, htorn, hu⟩
                · rintro ⟨h, _, hu⟩
                  obtain ⟨more, hmore, h⟩ := bind_eq_returns.mp h
                  rw [pure_eq, Outcome.returns.injEq] at h
                  rw [← h, List.drop_left] at hrest
                  rw [hrest.mpr ⟨hmore, hu⟩, ← h]
                  rfl
        | _ =>
            constructor
            · intro h
              cases h
            · rintro ⟨h, _⟩
              obtain ⟨c, hc'⟩ := consume_returns rs htorn h
              rw [hc] at hc'
              cases hc'

/-! ### The connection buffer -/

/-- The buffer holds the first `k` bytes of the requests, and zeros. -/
def Connection.Holds (state : Connection) (rs : List ClientRequest) (k : Nat) : Prop :=
  k ≤ (stream rs).length ∧ state.stop = k ∧
    ∃ m, state.buffer = (stream rs).take k ++ List.replicate m 0

theorem holds_setup (rs : List ClientRequest) : connectionSetup.Holds rs 0 :=
  ⟨Nat.zero_le _, rfl, httpMaxSize, by rw [List.take_zero]; rfl⟩

/-- The next bytes of the stream come in behind those that are there. -/
theorem Connection.Holds.received {state : Connection} {rs : List ClientRequest} {k : Nat}
    (h : state.Holds rs k) {segment more : Bytes} (hseg : (stream rs).drop k = segment ++ more) :
    k + segment.length ≤ (stream rs).length ∧
      ∃ m, state.buffer.take state.stop ++ segment ++ state.buffer.drop (state.stop + segment.length)
        = (stream rs).take (k + segment.length) ++ List.replicate m 0 := by
  obtain ⟨hk, hstop, m, hbuffer⟩ := h
  have hlen : ((stream rs).take k).length = k := by rw [List.length_take]; omega
  have htotal := congrArg List.length hseg
  rw [List.length_drop, List.length_append] at htotal
  refine ⟨by omega, m - segment.length, ?_⟩
  have htake : (stream rs).take (k + segment.length) = (stream rs).take k ++ segment := by
    rw [List.take_add, hseg, List.take_left]
  have hfront : ((stream rs).take k ++ List.replicate m (0 : UInt8)).take k = (stream rs).take k :=
    List.take_left' hlen
  have hback : ((stream rs).take k ++ List.replicate m (0 : UInt8)).drop (k + segment.length)
      = List.replicate (m - segment.length) 0 := by
    rw [← List.drop_drop, List.drop_left' hlen, List.drop_replicate]
  rw [hstop, hbuffer, htake, hfront, hback]

/-- Discarding what was used up brings the rest to the front and fills up with zeros. -/
theorem bufferDiscard_front {text : Bytes} {used m : Nat} (hused : used ≤ text.length) :
    bufferDiscard (text ++ List.replicate m 0) used (text.length - used)
      = text.drop used ++ List.replicate (used + m) 0 := by
  have hlen : text.length - used + used = text.length := by omega
  rw [bufferDiscard, hlen, List.drop_left, List.drop_append_of_le_length hused,
    List.take_left' (by rw [List.length_drop]), List.append_assoc, List.replicate_append_replicate]

/-- What a call of `handle_connection` comes to, against what it should. -/
structure Handled.Matches (n : Nat) (h : Handled) (c : Consumed) : Prop where
  exchanges : answered h.packets = c.exchanges
  cont : h.cont = !c.closed
  node : h.node = c.node
  holds : c.closed = false → h.state.Holds c.rest (n - c.used)

/-- **One `recv`** sets off one pass. -/
theorem handleConnection_consume (node : Node) {state : Connection} {rs : List ClientRequest}
    {k : Nat} (hholds : state.Holds rs k) {segment more : Bytes} (hne : segment ≠ [])
    (hseg : (stream rs).drop k = segment ++ more) (hreadable : ∀ r ∈ reached rs, r.Readable) :
    Rel (Handled.Matches (k + segment.length)) (handleConnection node state segment)
      (consume node rs (k + segment.length)) := by
  obtain ⟨hn, m, hbuffer⟩ := hholds.received hseg
  have hstop := hholds.2.1
  have htail : (List.replicate m (0 : UInt8)).headD 0 ≠ 10 := by
    cases m with
    | zero =>
        intro hc
        cases hc
    | succ m =>
        intro hc
        cases hc
  have hpass := @processWindow_consume rs node (k + segment.length + 1) 0 (k + segment.length)
    (List.replicate m 0) (fun r hr => (hreadable r hr).headers) (lengthsRead_of_readable hreadable) hn
    (fun _ => htail) (Nat.lt_succ_self _)
  unfold handleConnection
  rw [if_neg hne, hbuffer, hstop]
  refine Rel.bind_left hpass ?_
  intro w c hc hmatch
  cases hclosed : c.closed with
  | true =>
      have hret : w.ret = -1 := by rw [hmatch.ret, hclosed]; rfl
      rw [if_pos hret]
      refine ⟨_, rfl, hmatch.exchanges, ?_, hmatch.node, ?_⟩
      · rw [hclosed]
        rfl
      · rw [hclosed]
        intro hopen
        cases hopen
  | false =>
      have hret : ¬ w.ret = -1 := by rw [hmatch.ret, hclosed]; decide
      obtain ⟨hstart, hmem⟩ := hmatch.left hclosed
      obtain ⟨served, hsplit, hused, hle, -, -, -⟩ := consume_open rs hn hc hclosed
      rw [Nat.zero_add] at hstart
      rw [if_neg hret]
      refine ⟨_, rfl, hmatch.exchanges, by rw [hclosed]; rfl, hmatch.node, ?_⟩
      intro _
      have hrest : stream rs = stream served ++ stream c.rest := by
        rw [← stream_append, ← hsplit]
      have htext : ((stream rs).take (k + segment.length)).length = k + segment.length := by
        rw [List.length_take]
        omega
      have hdiscard := @bufferDiscard_front ((stream rs).take (k + segment.length)) c.used m
        (by omega)
      rw [htext] at hdiscard
      refine ⟨?_, ?_, c.used + m, ?_⟩
      · rw [hrest, List.length_append, hused] at hn
        omega
      · show k + segment.length - w.start = _
        rw [hstart]
      · show bufferDiscard (_ ++ w.mem) w.start (k + segment.length - w.start) = _
        rw [hstart, hmem, List.take_append_drop, hdiscard, List.drop_take, hrest,
          List.drop_left' hused]

/-- What is reached behind requests that do not close is reached. -/
theorem reached_behind : ∀ {served rs : List ClientRequest} {r : ClientRequest},
    (∀ r ∈ served, r.closes = false) → r ∈ reached rs → r ∈ reached (served ++ rs) := by
  intro served
  induction served with
  | nil => intro rs r _ hr; exact hr
  | cons r' served ih =>
      intro rs r hnone hr
      rw [List.cons_append, reached, hnone r' (List.mem_cons_self ..)]
      exact List.mem_cons_of_mem _ (ih (fun q hq => hnone q (List.mem_cons_of_mem _ hq)) hr)

theorem answered_append (ps qs : List Packet) : answered (ps ++ qs) = answered ps ++ answered qs := by
  rw [answered, List.filter_append, List.map_append]
  rfl

/-- **The connection handling refines the serving of a cut stream.** -/
theorem serveSegments_cut : ∀ (segments : List Bytes) {node : Node} {state : Connection}
    {rs : List ClientRequest} {k : Nat}, state.Holds rs k → (∀ s ∈ segments, s ≠ []) →
    (stream rs).drop k = segments.flatten → (∀ r ∈ reached rs, r.Readable) →
      Rel (fun packets out => answered packets = out) (serveSegments node state segments)
        (serveCut node rs k (segments.map List.length)) := by
  intro segments
  induction segments with
  | nil => intro node state rs k _ _ _ _; exact .returns rfl
  | cons segment segments ih =>
      intro node state rs k hholds hne hflat hreadable
      rw [List.flatten_cons] at hflat
      have hn := (hholds.received hflat).1
      have hpass := handleConnection_consume node hholds (hne segment (List.mem_cons_self ..)) hflat
        hreadable
      rw [serveSegments, List.map_cons, serveCut]
      cases hc : consume node rs (k + segment.length) with
      | returns c =>
          rw [hc] at hpass
          obtain ⟨h, hh, hmatch⟩ := hpass.returns_right
          rw [hh, returns_bind, returns_bind, hmatch.cont]
          cases hclosed : c.closed with
          | true => exact .returns hmatch.exchanges
          | false =>
              obtain ⟨served, hsplit, hused, hle, hnone, -, -⟩ := consume_open rs hn hc hclosed
              have hdrop : (stream c.rest).drop (k + segment.length - c.used) = segments.flatten := by
                have hrs : stream rs = stream served ++ stream c.rest := by
                  rw [← stream_append, ← hsplit]
                have hbehind : (stream rs).drop (k + segment.length) = segments.flatten := by
                  rw [← List.drop_drop, hflat, List.drop_left]
                have hsum : c.used + (k + segment.length - c.used) = k + segment.length := by omega
                rw [← hbehind, hrs, ← hsum, ← List.drop_drop, List.drop_left' hused, hsum]
              have hreached : ∀ r ∈ reached c.rest, r.Readable := by
                intro r hr
                refine hreadable r ?_
                rw [hsplit]
                exact reached_behind hnone hr
              rw [hmatch.node]
              refine Rel.bind (ih (hmatch.holds hclosed) (fun s hs => hne s (List.mem_cons_of_mem _ hs))
                hdrop hreached) ?_
              intro packets out hout
              refine .returns ?_
              rw [answered_append, hmatch.exchanges, hout]
      | diverges =>
          rw [hc] at hpass
          rw [hpass.diverges_right]
          exact .diverges
      | exits =>
          rw [hc] at hpass
          rw [hpass.exits_right]
          exact .exits
      | faults =>
          rw [hc] at hpass
          rw [hpass.faults_right]
          exact .faults

/-! ### One segment for each request -/

/-- The lengths of the requests are cuts between them. -/
theorem untorn_wires : ∀ (rs : List ClientRequest), Untorn rs 0 ((rs.map fun r => r.wire).map List.length) := by
  intro rs
  induction rs with
  | nil => trivial
  | cons r rs ih =>
      have hbetween : ∀ {k : Nat}, ¬ TornAt rs k → ¬ TornAt (r :: rs) (r.wire.length + k) := by
        intro k hk
        rw [TornAt, if_neg (by omega), Nat.add_sub_cancel_left]
        exact fun h => hk h.2
      have hshift : ∀ (ns : List Nat) (k : Nat), Untorn rs k ns →
          Untorn (r :: rs) (r.wire.length + k) ns := by
        intro ns
        induction ns with
        | nil => intro k _; trivial
        | cons n ns ihn =>
            rintro k ⟨hnot, hrest⟩
            rw [Untorn, Nat.add_assoc]
            exact ⟨hbetween hnot, ihn (k + n) hrest⟩
      have hstart : ¬ TornAt rs 0 := by
        cases rs with
        | nil => exact id
        | cons r' rs' =>
            rw [TornAt, if_pos (wire_length_pos r')]
            exact fun h => absurd h.1 (Nat.lt_irrefl 0)
      rw [List.map_cons, List.map_cons, Untorn, Nat.zero_add]
      exact ⟨hbetween hstart, hshift _ 0 ih⟩

/-- The buffer starts with the head of the request, and something stands behind it. -/
def Connection.HoldsHead (state : Connection) (r : ClientRequest) : Prop :=
  ∃ behind room, state.buffer = r.head ++ (behind ++ room) ∧ state.stop = r.head.length + behind.length

/-- **Once the head of a request is there** the request stays at the front of the buffer, or is
answered with a payload of the length that its line says. -/
theorem handleConnection_head {node : Node} {state : Connection} {r : ClientRequest} {k : Nat}
    {segment behind room : Bytes} (hne : segment ≠ [])
    (hmem : state.buffer.take state.stop ++ segment ++ state.buffer.drop (state.stop + segment.length)
      = r.head ++ (behind ++ room)) (hn : state.stop + segment.length = r.head.length + behind.length)
    (hsaid : SaidInLine r.headers k) {handled : Handled}
    (h : handleConnection node state segment = .returns handled) :
    (behind.length < k ∧ answered handled.packets = [] ∧ handled.state.HoldsHead r) ∨
      ∃ e es, answered handled.packets = e :: es ∧ e.payload.length = k := by
  unfold handleConnection at h
  rw [if_neg hne, hmem, hn] at h
  obtain ⟨w, hw, h⟩ := bind_eq_returns.mp h
  rw [processWindow] at hw
  obtain ⟨packet, hpacket, hw⟩ := bind_eq_returns.mp hw
  obtain ⟨-, k', hsaid', hcase⟩ := processPacket_said (Nat.le_add_right _ _) hpacket
  have hk : k' = k := by
    have hsame := (saidLength_iff.mp hsaid').symm.trans (saidLength_iff.mp (hsaid.said _))
    omega
  subst hk
  rcases hcase with ⟨hlt, hret, -, hnone, hkept⟩ | ⟨hle, hone, hpayload⟩
  · rw [if_neg (by omega), pure_eq, Outcome.returns.injEq] at hw
    subst hw
    rw [if_neg (by simp only; omega), pure_eq, Outcome.returns.injEq] at h
    subst h
    refine Or.inl ⟨by omega, by simp [answered, hnone], behind, room, ?_, Nat.sub_zero _⟩
    simp only [List.take_zero, List.nil_append, Nat.sub_zero, hkept, bufferDiscard, List.drop_zero,
      List.replicate_zero, List.append_nil, Nat.add_zero, List.take_append_drop]
  · have hlen : packet.exchange.payload.length = k' := by
      rw [hpayload, List.length_take, List.length_append]
      omega
    obtain ⟨ps, hps⟩ : ∃ ps, w.packets = packet :: ps := by
      split at hw
      · obtain ⟨w', -, hw⟩ := bind_eq_returns.mp hw
        rw [pure_eq, Outcome.returns.injEq] at hw
        exact ⟨w'.packets, by rw [← hw]⟩
      · rw [pure_eq, Outcome.returns.injEq] at hw
        exact ⟨[], by rw [← hw]⟩
    have hhandled : handled.packets = w.packets := by
      split at h
      · rw [← Outcome.returns.inj h]
      · rw [← Outcome.returns.inj h]
    rw [hhandled, hps, answered_cons hone]
    exact Or.inr ⟨_, _, rfl, hlen⟩

/-- Whatever comes in, the first request that is answered has that payload. -/
theorem serveSegments_head : ∀ (segments : List Bytes) {node : Node} {state : Connection} {r : ClientRequest}
    {k : Nat} {packets : List Packet}, state.HoldsHead r → SaidInLine r.headers k →
    serveSegments node state segments = .returns packets →
      answered packets = [] ∨ ∃ e es, answered packets = e :: es ∧ e.payload.length = k := by
  intro segments
  induction segments with
  | nil =>
      intro node state r k packets _ _ h
      rw [← Outcome.returns.inj h]
      exact Or.inl rfl
  | cons segment segments ih =>
      intro node state r k packets hholds hsaid h
      rw [serveSegments] at h
      obtain ⟨handled, hhandled, h⟩ := bind_eq_returns.mp h
      by_cases hne : segment = []
      · -- the end of the stream
        unfold handleConnection at hhandled
        rw [if_pos hne, Outcome.returns.injEq] at hhandled
        subst hhandled
        rw [if_neg Bool.false_ne_true, pure_eq, Outcome.returns.injEq] at h
        rw [← h]
        exact Or.inl rfl
      · obtain ⟨behind, room, hbuffer, hstop⟩ := hholds
        have hmem : state.buffer.take state.stop ++ segment ++ state.buffer.drop (state.stop + segment.length)
            = r.head ++ ((behind ++ segment) ++ room.drop segment.length) := by
          rw [hbuffer, hstop, Nat.add_assoc, List.drop_length_add_append, List.take_length_add_append,
            List.take_left, List.drop_length_add_append]
          simp only [List.append_assoc]
        have hn : state.stop + segment.length = r.head.length + (behind ++ segment).length := by
          rw [hstop, List.length_append, Nat.add_assoc]
        rcases handleConnection_head hne hmem hn hsaid hhandled with ⟨-, hnone, hkept⟩ | ⟨e, es, hes, hlen⟩
        · split at h
          case isTrue =>
            obtain ⟨more, hmore, h⟩ := bind_eq_returns.mp h
            rw [pure_eq, Outcome.returns.injEq] at h
            rw [← h, answered_append, hnone, List.nil_append]
            exact ih hkept hsaid hmore
          case isFalse =>
            rw [pure_eq, Outcome.returns.injEq] at h
            rw [← h]
            exact Or.inl hnone
        · split at h
          case isTrue =>
            obtain ⟨more, -, h⟩ := bind_eq_returns.mp h
            rw [pure_eq, Outcome.returns.injEq] at h
            rw [← h, answered_append]
            exact Or.inr ⟨e, es ++ answered more, by rw [hes]; rfl, hlen⟩
          case isFalse =>
            rw [pure_eq, Outcome.returns.injEq] at h
            rw [← h]
            exact Or.inr ⟨e, es, hes, hlen⟩

theorem SaidInLine.lengthInLine {r : ClientRequest} {n : Nat} (h : SaidInLine r.headers n) : r.LengthInLine := by
  intro header hfind
  unfold SaidInLine at h
  rw [show r.headers.find? Header.announces = some header from hfind] at h
  exact h.1

/-- Serving requests goes through exactly where the node withstands each of them. -/
theorem serveAll_withstands (rs : List ClientRequest) {node : Node} (hfree : node.resources.heap.badFree = false) :
    (∃ out, serveAll node rs = .returns out) ↔
      Along Node.next Node.withstands node ((reached rs).map fun r => r.parsed []) := by
  have hup : ∀ {node : Node} {request : Request}, node.resources.heap.badFree = false →
      ((∃ answer, node.answer request = .returns answer ∧ ∀ reply ∈ answer.replies, True) ↔
        node.withstands request) := by
    intro node request hfree
    rcases @answer_up node request hfree with ⟨⟨answer, hanswer, -⟩, hstands⟩ | ⟨hdown, hnot⟩
    · exact iff_of_true ⟨answer, hanswer, fun _ _ => trivial⟩ hstands
    · refine iff_of_false ?_ hnot
      rintro ⟨answer, hanswer, -⟩
      rw [hdown] at hanswer
      cases hanswer
  rw [← serveAll_returns_iff hup rs hfree]
  simp

/-- A line that is not blank says one number. -/
theorem ClientRequest.LengthInLine.said {r : ClientRequest} (h : r.LengthInLine) {rest : Bytes} {k : Nat}
    (hsaid : SaidLength r.headers rest k) : SaidInLine r.headers k := by
  unfold SaidInLine
  cases hfind : r.headers.find? Header.announces with
  | none =>
      have hzero := lengthUsed_none hfind rest
      rw [saidLength_iff.mp hsaid] at hzero
      exact_mod_cast hzero
  | some header =>
      have hline := h header hfind
      obtain ⟨more, hmore⟩ := lengthText_find? hfind rest
      rw [SaidLength, hmore] at hsaid
      refine ⟨hline, says_iff.mpr ?_⟩
      rw [← strtoul_line hline more]
      exact says_iff.mp hsaid

/-- The first of some whole requests, if it is handed on as it is, was read as it was meant. -/
theorem readable_of_first {r : ClientRequest} {node : Node} {state : Connection} {segments : List Bytes}
    {packets : List Packet} (hholds : state.Holds [r] 0) (hinline : r.LengthInLine)
    (hrun : serveSegments node state (r.wire :: segments) = .returns packets) {es : List Exchange}
    {e : Exchange} (hanswered : answered packets = e :: es) (hown : e.payload = r.payload) : r.Readable := by
  have hne : r.wire ≠ [] := List.ne_nil_of_length_pos (wire_length_pos r)
  obtain ⟨-, hstop, m, hbuffer⟩ := hholds
  rw [List.take_zero, List.nil_append] at hbuffer
  have hmem : state.buffer.take state.stop ++ r.wire ++ state.buffer.drop (state.stop + r.wire.length)
      = r.head ++ (r.payload ++ List.replicate (m - r.wire.length) 0) := by
    rw [hstop, hbuffer, List.take_zero, List.nil_append, Nat.zero_add, List.drop_replicate, RequestText.wire,
      List.append_assoc]
  have hn : state.stop + r.wire.length = r.head.length + r.payload.length := by
    rw [hstop, Nat.zero_add, r.wire_length]
  rw [serveSegments] at hrun
  obtain ⟨handled, hhandled, hrun⟩ := bind_eq_returns.mp hrun
  obtain ⟨hheaders, k, hsaid⟩ : r.headers.length ≤ httpMaxHeaders ∧ ∃ k, SaidInLine r.headers k := by
    have hh := hhandled
    unfold handleConnection at hh
    rw [if_neg hne, hmem, hn] at hh
    obtain ⟨w, hw, -⟩ := bind_eq_returns.mp hh
    rw [processWindow] at hw
    obtain ⟨packet, hpacket, -⟩ := bind_eq_returns.mp hw
    obtain ⟨hheaders, k, hsaid, -⟩ := processPacket_said (Nat.le_add_right _ _) hpacket
    exact ⟨hheaders, k, hinline.said hsaid⟩
  refine ⟨hheaders, ?_⟩
  have hlen : ∀ {e' : Exchange} {es' : List Exchange}, answered packets = e' :: es' →
      e'.payload.length = r.payload.length := by
    intro e' es' h
    rw [hanswered, List.cons.injEq] at h
    rw [← h.1, hown]
  rcases handleConnection_head hne hmem hn hsaid hhandled with ⟨hlt, hnone, hkept⟩ | ⟨e', es', hes, hk⟩
  · -- the request was not answered with the first segment, and then not as it is
    have hlater : answered packets = [] ∨ ∃ e es, answered packets = e :: es ∧ e.payload.length = k := by
      split at hrun
      case isTrue =>
        obtain ⟨more, hmore, hrun⟩ := bind_eq_returns.mp hrun
        rw [pure_eq, Outcome.returns.injEq] at hrun
        rw [← hrun, answered_append, hnone, List.nil_append]
        exact serveSegments_head segments hkept hsaid hmore
      case isFalse =>
        rw [pure_eq, Outcome.returns.injEq] at hrun
        rw [← hrun]
        exact Or.inl hnone
    rcases hlater with hempty | ⟨e', es', hes, hk⟩
    · rw [hempty] at hanswered
      cases hanswered
    · have hsame := hlen hes
      omega
  · obtain ⟨es'', hes''⟩ : ∃ es'', answered packets = e' :: es'' := by
      split at hrun
      case isTrue =>
        obtain ⟨more, -, hrun⟩ := bind_eq_returns.mp hrun
        rw [pure_eq, Outcome.returns.injEq] at hrun
        exact ⟨es' ++ answered more, by rw [← hrun, answered_append, hes]; rfl⟩
      case isFalse =>
        rw [pure_eq, Outcome.returns.injEq] at hrun
        exact ⟨es', by rw [← hrun, hes]⟩
    rwa [← hk, hlen hes''] at hsaid

/-- **A run over whole requests** that hands on these requests has read them as they were meant. -/
theorem readable_of_serve : ∀ (rs : List ClientRequest) {node : Node} {state : Connection}
    {packets : List Packet}, state.Holds rs 0 → (∀ r ∈ reached rs, r.LengthInLine) →
      serveSegments node state (rs.map fun r => r.wire) = .returns packets →
      (answered packets).map Exchange.fields = (reached rs).map ClientRequest.fields →
        ∀ r ∈ reached rs, r.Readable := by
  intro rs
  induction rs with
  | nil => intro _ _ _ _ _ _ _ r hr; exact absurd hr List.not_mem_nil
  | cons r rs ih =>
      intro node state packets hholds hinline hrun hfields
      have hfirst : Connection.Holds state [r] 0 := ⟨Nat.zero_le _, hholds.2.1, hholds.2.2⟩
      have hr : r.Readable := by
        cases hanswered : answered packets with
        | nil =>
            rw [hanswered, reached] at hfields
            cases hfields
        | cons e es =>
            rw [hanswered, reached, List.map_cons, List.map_cons, List.cons.injEq] at hfields
            exact readable_of_first hfirst (hinline r (List.mem_cons_self ..)) hrun hanswered
              (congrArg (fun f => f.2.2.2) hfields.1)
      have hone : stream [r] = r.wire := by simp [stream]
      have hwhole : (stream [r]).drop 0 = r.wire ++ [] := by simp [hone]
      have hne : r.wire ≠ [] := List.ne_nil_of_length_pos (wire_length_pos r)
      have honly : ∀ r' ∈ reached [r], r'.Readable := by
        intro r' hr'
        have hsame : r' = r := by simpa [reached] using hr'
        rw [hsame]
        exact hr
      rw [List.map_cons, serveSegments] at hrun
      obtain ⟨handled, hhandled, hrun⟩ := bind_eq_returns.mp hrun
      have hpass := handleConnection_consume node hfirst hne hwhole honly
      rw [hhandled] at hpass
      obtain ⟨c, hc, hmatch⟩ := hpass.returns_left
      rw [Nat.zero_add] at hc
      intro r' hr'
      rw [reached, List.mem_cons] at hr'
      rcases hr' with rfl | hr'
      · exact hr
      · cases hcloses : r.closes with
        | true =>
            rw [hcloses] at hr'
            exact absurd hr' List.not_mem_nil
        | false =>
            rw [hcloses] at hr'
            rw [consume, if_neg (Nat.lt_irrefl _), hcloses] at hc
            obtain ⟨answer, -, hc⟩ := bind_eq_returns.mp hc
            rw [if_neg (by decide)] at hc
            obtain ⟨c', hc', hc⟩ := bind_eq_returns.mp hc
            rw [consume, Outcome.returns.injEq] at hc'
            subst hc'
            rw [pure_eq, Outcome.returns.injEq] at hc
            subst hc
            have hcont : handled.cont = true := hmatch.cont
            rw [hcont, if_pos rfl] at hrun
            obtain ⟨more, hmore, hrun⟩ := bind_eq_returns.mp hrun
            rw [pure_eq, Outcome.returns.injEq] at hrun
            rw [← hrun, answered_append, hmatch.exchanges, reached, hcloses] at hfields
            have hlater : (answered more).map Exchange.fields = (reached rs).map ClientRequest.fields :=
              (List.cons.inj hfields).2
            obtain ⟨hle, hstop, hbuffer⟩ := hmatch.holds rfl
            rw [Nat.zero_add] at hstop hbuffer
            have hstop' : handled.state.stop = 0 := by
              rw [hstop]
              exact Nat.sub_self _
            have hrest : ∀ q ∈ reached rs, q.LengthInLine := by
              intro q hq
              refine hinline q ?_
              rw [reached, hcloses]
              exact List.mem_cons_of_mem _ hq
            refine ih ⟨Nat.zero_le _, hstop', ?_⟩ hrest hmore hlater r' hr'
            obtain ⟨m, hm⟩ := hbuffer
            refine ⟨m, ?_⟩
            rw [hm, stream, List.flatMap_nil, List.take_nil, List.take_zero]

/-! ### Cutting the stream -/

/-- **How TCP cuts the stream makes no difference exactly when** no cut falls between CR
and LF in the head of a request that is reached, each of these requests is read as it was
meant, and the node withstands it.  A length line that is blank is left out on both sides. -/
theorem same_as_whole_iff (node : Node) (rs : List ClientRequest) (segments : List Bytes)
    (hfree : node.resources.heap.badFree = false) (hne : ∀ s ∈ segments, s ≠ [])
    (hflat : segments.flatten = stream rs) :
    (SameAsWhole node rs segments ∧ ∀ r ∈ reached rs, r.LengthInLine) ↔
      (∀ before after, segments = before ++ after → ¬ TornAt rs before.flatten.length) ∧
      (∀ r ∈ reached rs, r.Readable) ∧
      Along Node.next Node.withstands node ((reached rs).map fun r => r.parsed []) := by
  have hstart : ¬ TornAt rs 0 := by
    cases rs with
    | nil => exact id
    | cons r rs =>
        rw [TornAt, if_pos (wire_length_pos r)]
        exact fun h => absurd h.1 (Nat.lt_irrefl 0)
  have hwait : Waiting rs 0 := fun r _ => wire_length_pos r
  have huntorn : Untorn rs 0 (segments.map List.length) ↔
      ∀ before after, segments = before ++ after → ¬ TornAt rs before.flatten.length := by
    have h := untorn_iff segments hstart
    simp only [Nat.zero_add] at h
    exact h
  have hwires : ∀ s ∈ rs.map fun r => r.wire, s ≠ [] := by
    intro s hs
    obtain ⟨r, -, rfl⟩ := List.mem_map.mp hs
    exact List.ne_nil_of_length_pos (wire_length_pos r)
  have hjoined : (rs.map fun r => r.wire).flatten = stream rs := List.flatMap_def.symm
  have hcut : ∀ {pieces : List Bytes}, (∀ s ∈ pieces, s ≠ []) → pieces.flatten = stream rs →
      (∀ r ∈ reached rs, r.Readable) →
        Rel (fun packets out => answered packets = out) (serveSegments node connectionSetup pieces)
          (serveCut node rs 0 (pieces.map List.length)) := by
    intro pieces hpieces hstream hreadable
    refine serveSegments_cut pieces (holds_setup rs) hpieces ?_ hreadable
    rw [List.drop_zero, hstream]
  have hsum : ∀ {pieces : List Bytes}, pieces.flatten = stream rs →
      0 + (pieces.map List.length).sum = (stream rs).length := by
    intro pieces hstream
    rw [Nat.zero_add, ← List.length_flatten, hstream]
  have hserves := serveAll_withstands rs hfree
  rw [← huntorn]
  constructor
  · rintro ⟨⟨packets, whole, hpackets, hwhole, hsame, hown⟩, hinline⟩
    rw [hsame] at hown
    have hreadable := readable_of_serve rs (holds_setup rs) hinline hwhole hown
    have hrun := hcut hne hflat hreadable
    rw [hpackets] at hrun
    obtain ⟨out, hout, -⟩ := hrun.returns_left
    obtain ⟨hserve, hnot⟩ := (serveCut_iff _ hwait (hsum hflat)).mp hout
    exact ⟨hnot, hreadable, hserves.mp ⟨out, hserve⟩⟩
  · rintro ⟨hnot, hreadable, halong⟩
    obtain ⟨out, hserve⟩ := hserves.mpr halong
    have hrun := hcut hne hflat hreadable
    rw [(serveCut_iff _ hwait (hsum hflat)).mpr ⟨hserve, hnot⟩] at hrun
    obtain ⟨packets, hpackets, hanswered⟩ := hrun.returns_right
    have href := hcut hwires hjoined hreadable
    rw [(serveCut_iff _ hwait (hsum hjoined)).mpr ⟨hserve, untorn_wires rs⟩] at href
    obtain ⟨whole, hwhole, hanswered'⟩ := href.returns_right
    refine ⟨⟨packets, whole, hpackets, hwhole, hanswered.trans hanswered'.symm, ?_⟩, ?_⟩
    · rw [hanswered]
      exact (serveAll_fields rs hserve).1
    · exact fun r hr => (hreadable r hr).length.lengthInLine

/-- `GET /a`, cut behind the first carriage return. -/
theorem torn_get_hangs : ¬ SameAsWhole loneNode [plainGet] [plainGet.wire.take 16, plainGet.wire.drop 16] := by
  rintro ⟨packets, _, hpackets, -⟩
  have hstuck : serveSegments loneNode connectionSetup [plainGet.wire.take 16, plainGet.wire.drop 16]
      = .diverges := by decide +kernel
  rw [hstuck] at hpackets
  cases hpackets

def plainGetSegments : List Bytes :=
  [plainGet.wire.take 5, (plainGet.wire.drop 5).take 12, plainGet.wire.drop 17]

/-- Cut inside the target and between the two line ends, it is served as ever. -/
theorem cut_get_same : SameAsWhole loneNode [plainGet] plainGetSegments := by
  have hcuts : ∀ n ≤ 3, ¬ TornAt [plainGet] (plainGetSegments.take n).flatten.length := by decide
  have hreadable : ∀ r ∈ reached [plainGet], r.Readable := by
    intro r hr
    rw [show r = plainGet by simpa [reached] using hr]
    exact ⟨by decide, rfl⟩
  refine ((same_as_whole_iff loneNode [plainGet] _ rfl (by decide) (by decide)).mpr
    ⟨?_, hreadable, by decide +kernel⟩).1
  intro before after hsplit
  have hbefore : plainGetSegments.take before.length = before := by rw [hsplit, List.take_left]
  have hlen := congrArg List.length hsplit
  rw [List.length_append] at hlen
  have hle : before.length ≤ 3 := by
    have h3 : plainGetSegments.length = 3 := rfl
    omega
  have h := hcuts before.length hle
  rwa [hbefore] at h

end ChordDht.Chord
