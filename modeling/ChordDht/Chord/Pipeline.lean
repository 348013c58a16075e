/-
Pipelined requests.

A client may send several requests at once and expects a response to each of them, in
order, up to the first one that asks for the connection to be closed.  The test at the
end of `process_packet` has it the other way round: it closes after a `Connection`
header whose value is anything but `close`, and since the blank after the colon is part
of the value, that is every `Connection` header in the usual form.  Asking to close
closes, and so does asking to keep the connection.

`answers_all_iff` gives the exact condition under which all of the pipeline is answered.
The other parts of it are about the requests one by one: the server has to read the
payload's length as it was meant, and has to be able to answer in full.
-/
import ChordDht.Chord.Window

namespace ChordDht.Chord

open Outcome Trace

def Exchange.fields (e : Exchange) : Bytes × Bytes × List Header × Bytes :=
  (e.method, e.uri, e.headers, e.payload)

namespace ClientRequest

variable (r : ClientRequest)

def fields : Bytes × Bytes × List Header × Bytes := (r.method, r.uri, r.headers, r.payload)

def connection : Option Bytes := getHeader (r.parsed []) (ascii "Connection")

/-- The value of the Connection header, after an optional blank, is `close`. -/
def asksClose : Bool :=
  r.connection.any fun v => (if v.head? = some 32 then v.tail else v) == ascii "close"

/-- Names and values are separated as in `Name: value`. -/
def Spaced : Prop := ∀ h ∈ r.headers, h.value.head? = some 32

end ClientRequest

/-- The requests a client expects an answer to: up to the first that asks to close. -/
def untilClose : List ClientRequest → List ClientRequest
  | [] => []
  | r :: rs => r :: if r.asksClose then [] else untilClose rs

/-- One pass over a buffer that holds these requests sends one whole response for each request
up to the first that asks to close; if none does, it uses up all of their bytes and
wants the connection kept open. -/
def AnswersAll (node : Node) (rs : List ClientRequest) (tail : Bytes) : Prop :=
  ∃ w, processWindow ((stream rs).length + 1) node (stream rs ++ tail) 0 (stream rs).length
      = .returns w ∧
    (answered w.packets).map Exchange.fields = (untilClose rs).map ClientRequest.fields ∧
    (∀ e ∈ answered w.packets, ∃ reply, e.replies = [reply] ∧ reply.Whole) ∧
    ((∀ r ∈ rs, r.asksClose = false) → w.ret = 0 ∧ w.start = (stream rs).length)

/-- The requests that are reached are read as they were meant, each with those behind it and then
`tail` in memory. -/
def MeasuredAll : List ClientRequest → Bytes → Prop
  | [], _ => True
  | r :: rs, tail => r.Measured (stream rs ++ tail) ∧ (r.closes = false → MeasuredAll rs tail)

instance decidableMeasuredAll : ∀ (rs : List ClientRequest) (tail : Bytes), Decidable (MeasuredAll rs tail)
  | [], _ => .isTrue trivial
  | r :: rs, tail =>
      have := decidableMeasuredAll rs tail
      inferInstanceAs (Decidable (r.Measured (stream rs ++ tail) ∧ (r.closes = false → MeasuredAll rs tail)))

/-! ### A pass over whole requests -/

/-- What serving requests returns: the reached ones, with one reply each. -/
theorem serveAll_fields : ∀ (rs : List ClientRequest) {node : Node} {out : List Exchange},
    serveAll node rs = .returns out →
      out.map Exchange.fields = (reached rs).map ClientRequest.fields ∧
        ∀ e ∈ out, ∃ reply, e.replies = [reply] := by
  intro rs
  induction rs with
  | nil =>
      intro node out h
      rw [serveAll, Outcome.returns.injEq] at h
      rw [← h]
      exact ⟨rfl, by simp⟩
  | cons r rs ih =>
      intro node out h
      rw [serveAll] at h
      obtain ⟨answer, hanswer, h⟩ := bind_eq_returns.mp h
      have hone := answer_one hanswer
      cases hcloses : r.closes with
      | true =>
          rw [hcloses, if_pos rfl, pure_eq, Outcome.returns.injEq] at h
          rw [← h, reached, hcloses]
          refine ⟨rfl, ?_⟩
          intro e he
          rw [List.mem_singleton.mp he]
          exact hone
      | false =>
          rw [hcloses, if_neg (by decide)] at h
          obtain ⟨exchanges, hrest, h⟩ := bind_eq_returns.mp h
          rw [pure_eq, Outcome.returns.injEq] at h
          obtain ⟨hfields, hones⟩ := ih hrest
          rw [← h, reached, hcloses]
          refine ⟨?_, ?_⟩
          · show _ :: exchanges.map Exchange.fields = _ :: (reached rs).map ClientRequest.fields
            rw [hfields]
            rfl
          · intro e he
            rcases List.mem_cons.mp he with rfl | he
            · exact hone
            · exact hones e he

/-- Serving requests goes through, with replies of some kind, exactly when each of them is
answered with such replies by the node as it is then. -/
theorem serveAll_returns_iff {Fine : Reply → Prop} {Answerable : Node → Request → Prop}
    (hanswer : ∀ {node : Node} {request : Request}, node.resources.heap.badFree = false →
      ((∃ answer, node.answer request = .returns answer ∧ ∀ reply ∈ answer.replies, Fine reply) ↔
        Answerable node request)) :
    ∀ (rs : List ClientRequest) {node : Node}, node.resources.heap.badFree = false →
      ((∃ out, serveAll node rs = .returns out ∧ ∀ e ∈ out, ∀ reply ∈ e.replies, Fine reply) ↔
        Along Node.next Answerable node ((reached rs).map fun r => r.parsed [])) := by
  intro rs
  induction rs with
  | nil =>
      intro node _
      exact ⟨fun _ => trivial, fun _ => ⟨[], rfl, fun e he => absurd he List.not_mem_nil⟩⟩
  | cons r rs ih =>
      intro node hfree
      rw [serveAll, reached, List.map_cons]
      rcases @answer_up node (r.parsed []) hfree with ⟨⟨answer, hans, hup⟩, -⟩ | ⟨hdown, -⟩
      · have hnext : node.next (r.parsed []) = some answer.node := by
          unfold Node.next
          rw [hans]
        have hfirst : (∀ reply ∈ answer.replies, Fine reply) ↔ Answerable node (r.parsed []) := by
          rw [← hanswer hfree, hans]
          simp
        rw [hans, returns_bind]
        cases hcloses : r.closes with
        | true =>
            constructor
            · rintro ⟨out, hout, hfine⟩
              rw [if_pos rfl, pure_eq, Outcome.returns.injEq] at hout
              refine ⟨hfirst.mp (hfine (r.exchange answer) ?_), fun _ _ => trivial⟩
              rw [← hout]
              exact List.mem_singleton_self _
            · rintro ⟨hfine, -⟩
              refine ⟨_, rfl, ?_⟩
              intro e he
              rw [List.mem_singleton.mp he]
              exact hfirst.mpr hfine
        | false =>
            have hrest := ih hup
            rw [if_neg (by decide), if_neg (by decide)]
            constructor
            · rintro ⟨out, hout, hfine⟩
              obtain ⟨exchanges, hex, hout⟩ := bind_eq_returns.mp hout
              rw [pure_eq, Outcome.returns.injEq] at hout
              subst hout
              refine ⟨hfirst.mp (hfine (r.exchange answer) (List.mem_cons_self ..)), ?_⟩
              intro node' hnode'
              rw [hnext, Option.some.injEq] at hnode'
              rw [← hnode']
              exact hrest.mp ⟨exchanges, hex, fun e he => hfine e (List.mem_cons_of_mem _ he)⟩
            · rintro ⟨hfine, halong⟩
              obtain ⟨exchanges, hex, hfines⟩ := hrest.mpr (halong answer.node hnext)
              refine ⟨r.exchange answer :: exchanges, by rw [hex]; rfl, ?_⟩
              intro e he
              rcases List.mem_cons.mp he with rfl | he
              · exact hfirst.mpr hfine
              · exact hfines e he
      · rw [hdown]
        constructor
        · rintro ⟨out, hout, -⟩
          cases hout
        · rintro ⟨hfine, -⟩
          obtain ⟨answer, hans, -⟩ := (hanswer hfree).mpr hfine
          rw [hdown] at hans
          cases hans

/-- What a pass over exactly these requests comes to. -/
def Consumed.Whole (rs : List ClientRequest) (c : Consumed) (out : List Exchange) : Prop :=
  c.exchanges = out ∧ c.closed = rs.any ClientRequest.closes ∧
    (c.closed = false → c.used = (stream rs).length)

theorem consume_whole : ∀ (rs : List ClientRequest) (node : Node),
    Rel (Consumed.Whole rs) (consume node rs (stream rs).length) (serveAll node rs) := by
  intro rs
  induction rs with
  | nil => intro node; exact .returns ⟨rfl, rfl, fun _ => rfl⟩
  | cons r rs ih =>
      intro node
      have hlen : (stream (r :: rs)).length = r.wire.length + (stream rs).length := by
        rw [stream, List.flatMap_cons, List.length_append]
        rfl
      have hnot : ¬ (stream (r :: rs)).length < r.wire.length := by omega
      have hrest : (stream (r :: rs)).length - r.wire.length = (stream rs).length := by omega
      rw [consume, serveAll, if_neg hnot, hrest]
      cases node.answer (r.parsed []) with
      | diverges => exact .diverges
      | exits => exact .exits
      | faults => exact .faults
      | returns answer =>
          rw [returns_bind, returns_bind]
          cases hcloses : r.closes with
          | true =>
              refine .returns ⟨rfl, ?_, ?_⟩
              · rw [List.any_cons, hcloses]
                rfl
              · intro hopen
                cases hopen
          | false =>
              rw [if_neg (by decide), if_neg (by decide)]
              refine Rel.bind (ih answer.node) ?_
              rintro c out ⟨hout, hclosed, hused⟩
              refine .returns ⟨?_, ?_, ?_⟩
              · rw [hout]
              · rw [List.any_cons, hcloses, Bool.false_or]
                exact hclosed
              · intro hopen
                rw [hlen, ← hused hopen]

theorem MeasuredAll.lengthsRead : ∀ {rs : List ClientRequest} {tail : Bytes}, MeasuredAll rs tail →
    LengthsRead rs (stream rs).length tail := by
  intro rs
  induction rs with
  | nil => intro tail _; trivial
  | cons r rs ih =>
      rintro tail ⟨hmeasured, hrest⟩
      have hlen : (stream (r :: rs)).length = r.wire.length + (stream rs).length := by
        rw [stream, List.flatMap_cons, List.length_append]
        rfl
      have hbehind : (stream (r :: rs)).length - r.wire.length = (stream rs).length := by omega
      rw [LengthsRead, if_neg (by omega), hbehind, List.take_length]
      exact ⟨hmeasured, fun hopen => ih (hrest hopen)⟩

/-- A pass over whole requests that are read as they were meant. -/
theorem processWindow_whole {node : Node} {rs : List ClientRequest} {tail : Bytes}
    (hheaders : ∀ r ∈ reached rs, r.headers.length ≤ httpMaxHeaders) (hmeasured : MeasuredAll rs tail) :
    Rel (Window.Matches 0 (stream rs ++ tail))
      (processWindow ((stream rs).length + 1) node (stream rs ++ tail) 0 (stream rs).length)
      (consume node rs (stream rs).length) := by
  have hpass := @processWindow_consume rs node ((stream rs).length + 1) 0 (stream rs).length tail
    hheaders hmeasured.lengthsRead (Nat.le_refl _) (fun hc => absurd hc (Nat.lt_irrefl _)) (Nat.lt_succ_self _)
  rwa [List.take_length] at hpass

/-- A pass that answers the requests it is expected to has read them all as they were meant. -/
theorem measured_of_answered : ∀ (rs : List ClientRequest) {node : Node} {fuel start : Nat} {tail : Bytes}
    {w : Window}, (∀ r ∈ rs, r.asksClose = true → r.closes = true) →
      processWindow fuel node (stream rs ++ tail) start (stream rs).length = .returns w →
      (answered w.packets).map Exchange.fields = (untilClose rs).map ClientRequest.fields →
        (∀ r ∈ reached rs, r.headers.length ≤ httpMaxHeaders) ∧ MeasuredAll rs tail := by
  intro rs
  induction rs with
  | nil => intro _ _ _ _ _ _ _ _; exact ⟨fun r hr => absurd hr List.not_mem_nil, trivial⟩
  | cons r rs ih =>
      intro node fuel start tail w hasks hw hfields
      cases fuel with
      | zero => cases hw
      | succ fuel =>
          have hstream : stream (r :: rs) = r.wire ++ stream rs := List.flatMap_cons
          have hwire := r.wire_length
          rw [hstream, List.length_append, List.append_assoc, processWindow] at hw
          obtain ⟨packet, hpacket, hw⟩ := bind_eq_returns.mp hw
          have hthere := hpacket
          rw [r.wire_append] at hthere
          obtain ⟨hheaders, k, hsaid, hcase⟩ := processPacket_said (by omega) hthere
          rcases hcase with ⟨-, hret, -, hnone, -⟩ | ⟨hle, hone, hpayload⟩
          · -- the request is left waiting
            rw [if_neg (by omega), pure_eq, Outcome.returns.injEq] at hw
            rw [← hw, untilClose] at hfields
            simp [answered, hnone] at hfields
          · -- it is answered with the payload that was read, so that is its own
            have hfirst : ∃ ps, w.packets = packet :: ps := by
              split at hw
              · obtain ⟨w', -, hw⟩ := bind_eq_returns.mp hw
                rw [pure_eq, Outcome.returns.injEq] at hw
                exact ⟨w'.packets, by rw [← hw]⟩
              · rw [pure_eq, Outcome.returns.injEq] at hw
                exact ⟨[], by rw [← hw]⟩
            obtain ⟨ps, hps⟩ := hfirst
            have hown := hfields
            rw [hps, answered_cons hone, untilClose, List.map_cons, List.map_cons, List.cons.injEq] at hown
            have hsame : packet.exchange.payload = r.payload := congrArg (fun f => f.2.2.2) hown.1
            have hlen := congrArg List.length (hpayload.symm.trans hsame)
            rw [List.length_take, List.length_append, List.length_append] at hlen
            have hk : k = r.payload.length := by omega
            have hmeasured : r.Measured (stream rs ++ tail) := by
              rw [hk] at hsaid
              exact hsaid
            rw [processPacket_whole node r _ (Nat.le_add_right _ _) hheaders hmeasured] at hpacket
            obtain ⟨answer, -, hpacket⟩ := bind_eq_returns.mp hpacket
            rw [pure_eq, Outcome.returns.injEq] at hpacket
            subst hpacket
            cases hcloses : r.closes with
            | true =>
                refine ⟨?_, hmeasured, fun hc => by rw [hcloses] at hc; cases hc⟩
                intro r' hr'
                rw [reached, hcloses] at hr'
                rw [List.mem_singleton.mp hr']
                exact hheaders
            | false =>
                have hask : r.asksClose = false := by
                  rw [← Bool.not_eq_true]
                  intro hc
                  rw [hasks r (List.mem_cons_self ..) hc] at hcloses
                  cases hcloses
                have hpos : (0 : Int) < r.wire.length := by
                  have h := wire_length_pos r
                  omega
                rw [hcloses] at hw
                simp only [Bool.false_eq_true, if_false, hpos, if_true, Int.toNat_natCast,
                  r.ended_drop, Nat.add_sub_cancel_left] at hw
                obtain ⟨w', hw', hw⟩ := bind_eq_returns.mp hw
                rw [pure_eq, Outcome.returns.injEq] at hw
                rw [← hw] at hps
                rw [← (List.cons.inj hps).2, hask] at hown
                obtain ⟨hrest, hrestMeasured⟩ := ih (fun r' hr' => hasks r' (List.mem_cons_of_mem _ hr')) hw'
                  hown.2
                refine ⟨?_, hmeasured, fun _ => hrestMeasured⟩
                intro r' hr'
                rw [reached, hcloses] at hr'
                rcases List.mem_cons.mp hr' with rfl | hr'
                · exact hheaders
                · exact hrest r' hr'

/-! ### When closing is asked for and when it happens -/

theorem getHeader_mem {request : Request} {name v : Bytes} (h : getHeader request name = some v) :
    ∃ header ∈ request.headers, header.value = v := by
  obtain ⟨header, hfind, hvalue⟩ := Option.map_eq_some_iff.mp h
  exact ⟨header, List.mem_of_find?_eq_some hfind, hvalue⟩

/-- In the usual form every Connection header closes the connection. -/
theorem closes_iff {r : ClientRequest} (hspaced : r.Spaced) :
    r.closes = true ↔ r.connection ≠ none := by
  have hread : r.closes = (r.connection.map fun value => value != ascii "close").getD false := by
    unfold ClientRequest.closes closesAfter ClientRequest.connection
    cases getHeader (r.parsed []) (ascii "Connection") <;> rfl
  rw [hread]
  cases hconn : r.connection with
  | none => simp
  | some v =>
      obtain ⟨h, hmem, hvalue⟩ := getHeader_mem hconn
      have hblank : v.head? = some 32 := by
        rw [← hvalue]
        exact hspaced h hmem
      have hne : v ≠ ascii "close" := by
        intro hc
        rw [hc] at hblank
        exact absurd hblank (by decide)
      simp [hne]

theorem asksClose_iff {r : ClientRequest} (hspaced : r.Spaced) :
    r.asksClose = true ↔ r.connection = some (ascii " close") := by
  unfold ClientRequest.asksClose
  cases hconn : r.connection with
  | none => simp
  | some v =>
      obtain ⟨h, hmem, hvalue⟩ := getHeader_mem hconn
      have hblank : v.head? = some 32 := by
        rw [← hvalue]
        exact hspaced h hmem
      obtain ⟨b, v, rfl⟩ : ∃ b v', v = b :: v' := by
        cases v with
        | nil => cases hblank
        | cons b v' => exact ⟨b, v', rfl⟩
      have hb : b = 32 := Option.some.inj hblank
      have htext : ascii " close" = 32 :: ascii "close" := by decide
      rw [hb, htext]
      simp

theorem asksClose_closes {r : ClientRequest} (hspaced : r.Spaced) (h : r.asksClose = true) :
    r.closes = true := by
  rw [closes_iff hspaced, (asksClose_iff hspaced).mp h]
  simp

/-- Up to where the client expects answers, only requests that ask for it close. -/
theorem reached_untilClose : ∀ (rs : List ClientRequest), (∀ r ∈ rs, r.asksClose = true → r.closes = true) →
    (((reached rs).length = (untilClose rs).length ∧
        ((∀ r ∈ rs, r.asksClose = false) → rs.any ClientRequest.closes = false)) ↔
      ∀ r ∈ untilClose rs, r.closes = true → r.asksClose = true) := by
  intro rs
  induction rs with
  | nil => intro _; simp [reached, untilClose]
  | cons r rs ih =>
      intro hasks
      have hrest := ih fun r' hr' => hasks r' (List.mem_cons_of_mem _ hr')
      rw [reached, untilClose]
      cases hask : r.asksClose with
      | true =>
          have hclose := hasks r (List.mem_cons_self ..) hask
          simp [hclose, hask]
      | false =>
          cases hclose : r.closes with
          | true =>
              constructor
              · rintro ⟨hlen, hany⟩
                -- the lengths agree only at the end, where the connection was to be kept
                have hnil : untilClose rs = [] := by
                  simpa using hlen
                have hrs : rs = [] := by
                  cases rs with
                  | nil => rfl
                  | cons r' rs' => cases hnil
                subst hrs
                have hc := hany (by simp [hask])
                rw [List.any_cons, hclose] at hc
                cases hc
              · intro hall
                have hc := hall r (List.mem_cons_self ..) hclose
                rw [hask] at hc
                cases hc
          | false =>
              simp only [Bool.false_eq_true, if_false, List.length_cons, Nat.add_right_cancel_iff,
                List.any_cons, hclose, Bool.false_or, List.mem_cons, forall_eq_or_imp, hask,
                true_and, false_imp_iff]
              exact hrest

/-- Where only requests that ask for it close, these are the requests that are reached. -/
theorem reached_eq_untilClose : ∀ {rs : List ClientRequest},
    (∀ r ∈ rs, r.asksClose = true → r.closes = true) →
    (reached rs).length = (untilClose rs).length → reached rs = untilClose rs := by
  intro rs
  induction rs with
  | nil => intro _ _; rfl
  | cons r rs ih =>
      intro hasks hlen
      rw [reached, untilClose] at hlen ⊢
      cases hask : r.asksClose with
      | true =>
          rw [hasks r (List.mem_cons_self ..) hask]
          rfl
      | false =>
          rw [hask] at hlen
          cases hclose : r.closes with
          | true =>
              rw [hclose] at hlen
              have hnil : untilClose rs = [] := by simpa using hlen
              simp [hnil]
          | false =>
              rw [hclose] at hlen
              have hrest := ih (fun r' hr' => hasks r' (List.mem_cons_of_mem _ hr'))
                (by simpa using hlen)
              simp [hrest]

theorem mem_of_untilClose : ∀ {rs : List ClientRequest} {r : ClientRequest}, r ∈ untilClose rs → r ∈ rs := by
  intro rs
  induction rs with
  | nil => intro r hr; exact hr
  | cons r' rs ih =>
      intro r hr
      rw [untilClose] at hr
      split at hr
      · rw [List.mem_singleton.mp hr]
        exact List.mem_cons_self ..
      · rcases List.mem_cons.mp hr with rfl | hr
        · exact List.mem_cons_self ..
        · exact List.mem_cons_of_mem _ (ih hr)

/-! ### The pipeline -/

/-- **All of a pipeline is answered exactly when**, up to the first request that asks to
close, no request has another value in its Connection header, none has more headers than
the array holds, the number the server reads for each is the length of its payload, and
each can be answered in full by the node as it is then. -/
theorem answers_all_iff (node : Node) (rs : List ClientRequest) (tail : Bytes)
    (hfree : node.resources.heap.badFree = false) (hspaced : ∀ r ∈ rs, r.Spaced) :
    AnswersAll node rs tail ↔
      (∀ r ∈ untilClose rs, ∀ v ∈ r.connection, v = ascii " close") ∧
      (∀ r ∈ untilClose rs, r.headers.length ≤ httpMaxHeaders) ∧ MeasuredAll rs tail ∧
      Along Node.next Node.answersWhole node ((untilClose rs).map fun r => r.parsed []) := by
  have hasks : ∀ r ∈ rs, r.asksClose = true → r.closes = true :=
    fun r hr h => asksClose_closes (hspaced r hr) h
  have hvalues : (∀ r ∈ untilClose rs, ∀ v ∈ r.connection, v = ascii " close") ↔
      ∀ r ∈ untilClose rs, r.closes = true → r.asksClose = true := by
    refine forall_congr' fun r => forall_congr' fun hr => ?_
    have hr' := hspaced r (mem_of_untilClose hr)
    rw [closes_iff hr', asksClose_iff hr']
    cases r.connection with
    | none => simp
    | some v => simp
  have hserve := @serveAll_returns_iff Reply.Whole Node.answersWhole (fun hfree => answer_whole_iff hfree) rs node hfree
  rw [hvalues, ← reached_untilClose rs hasks]
  constructor
  · rintro ⟨w, hw, hfields, hones, hkept⟩
    obtain ⟨hheaders, hmeasured⟩ := measured_of_answered rs hasks hw hfields
    have hpass := @processWindow_whole node rs tail hheaders hmeasured
    rw [hw] at hpass
    obtain ⟨c, hc, hmatch⟩ := hpass.returns_left
    have hwhole := consume_whole rs node
    rw [hc] at hwhole
    obtain ⟨out, hout, hexchanges, hclosed, -⟩ := hwhole.returns_left
    obtain ⟨hreached, -⟩ := serveAll_fields rs hout
    rw [hmatch.exchanges, hexchanges] at hfields hones
    rw [hreached] at hfields
    have hlen : (reached rs).length = (untilClose rs).length := by
      simpa using congrArg List.length hfields
    have hsame := reached_eq_untilClose hasks hlen
    refine ⟨⟨hlen, ?_⟩, ?_, hmeasured, ?_⟩
    · intro hnone
      have hret := (hkept hnone).1
      rw [hmatch.ret] at hret
      rw [← hclosed]
      cases hcase : c.closed with
      | false => rfl
      | true =>
          rw [hcase] at hret
          cases hret
    · rw [← hsame]
      exact hheaders
    · rw [← hsame]
      refine hserve.mp ⟨out, hout, ?_⟩
      intro e he reply hreply
      obtain ⟨reply', hone, hfull⟩ := hones e he
      rw [hone] at hreply
      rwa [List.mem_singleton.mp hreply]
  · rintro ⟨⟨hlen, hopen⟩, hheaders, hmeasured, halong⟩
    have hsame := reached_eq_untilClose hasks hlen
    rw [← hsame] at hheaders halong
    obtain ⟨out, hout, hfull⟩ := hserve.mpr halong
    obtain ⟨hreached, hones⟩ := serveAll_fields rs hout
    have hwhole := consume_whole rs node
    rw [hout] at hwhole
    obtain ⟨c, hc, hexchanges, hclosed, hused⟩ := hwhole.returns_right
    have hpass := @processWindow_whole node rs tail hheaders hmeasured
    rw [hc] at hpass
    obtain ⟨w, hw, hmatch⟩ := hpass.returns_right
    refine ⟨w, hw, ?_, ?_, ?_⟩
    · rw [hmatch.exchanges, hexchanges, hreached, hsame]
    · rw [hmatch.exchanges, hexchanges]
      intro e he
      obtain ⟨reply, hreply⟩ := hones e he
      exact ⟨reply, hreply, hfull e he reply (by rw [hreply]; exact List.mem_singleton_self _)⟩
    · intro hnone
      have hkept : c.closed = false := hclosed.trans (hopen hnone)
      refine ⟨?_, ?_⟩
      · rw [hmatch.ret, hkept]
        rfl
      · rw [(hmatch.left hkept).1, hused hkept, Nat.zero_add]

/-! ### Asking to keep the connection -/

/-- `GET /a` with these headers. -/
def getText (headers : List Header) : RequestText :=
  ⟨ascii "GET", ascii "/a", ascii "HTTP/1.1", headers, []⟩

def plainGet : ClientRequest where
  toRequestText := getText []
  wellFormed := ⟨by decide, by decide, by decide, by decide, by decide, rfl, by decide⟩

def keepAliveGet : ClientRequest where
  toRequestText := getText [⟨ascii "Connection", ascii " keep-alive"⟩]
  wellFormed := ⟨by decide, by decide, by decide, by decide, by decide, rfl, by decide⟩

def closeGet : ClientRequest where
  toRequestText := getText [⟨ascii "Connection", ascii " close"⟩]
  wellFormed := ⟨by decide, by decide, by decide, by decide, by decide, rfl, by decide⟩

/-- The second of the two requests is not answered. -/
theorem keep_alive_closes : ¬ AnswersAll loneNode [keepAliveGet, plainGet] [] := by
  rintro ⟨w, hw, hfields, _, _⟩
  have hcount : (do
      let w ← processWindow ((stream [keepAliveGet, plainGet]).length + 1) loneNode
        (stream [keepAliveGet, plainGet] ++ []) 0 (stream [keepAliveGet, plainGet]).length
      return (answered w.packets).length) = Outcome.returns 1 := by decide +kernel
  rw [hw, returns_bind, pure_eq, Outcome.returns.injEq] at hcount
  have hone : (answered w.packets).length = 1 := hcount
  have hlen := congrArg List.length hfields
  rw [List.length_map, hone] at hlen
  exact absurd hlen (by decide)

theorem answers_all_plain_close : AnswersAll loneNode [plainGet, closeGet] [] := by
  have hspaced : ∀ r ∈ [plainGet, closeGet], r.Spaced := by
    unfold ClientRequest.Spaced
    decide
  exact (answers_all_iff loneNode [plainGet, closeGet] [] rfl hspaced).mpr
    ⟨by decide, by decide, by decide +kernel, by decide +kernel⟩

end ChordDht.Chord
