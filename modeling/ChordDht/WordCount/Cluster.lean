/-
The distributor and its workers, as processes that send each other messages.

In `Distributor.lean` a worker is a function.  Here the distributor and the workers take their
steps in any order: the distributor goes through its two phases and the `rip` at the end, with a
`REQ` socket for each port it was given, and a worker answers what it finds at one of its `REP`
sockets, with the memory it has just then.  `cluster_refines`: whatever the order, nothing
overruns, one message at a time is on its way, and what is printed is what the functions come
to.  `cluster_finishes_iff`: the distributor comes to its end exactly when each port it was given
is one that a worker listens on, and none was given twice.
-/
import ChordDht.WordCount.Faults

namespace ChordDht.WordCount

open Outcome Trace

/-! ### The processes -/

/-- The worker processes, with the sockets each of them could bind, and the ports the distributor
was given: for each the process, and the socket, that is reached there. -/
structure Fleet where
  ports : Nat
  pos : 0 < ports
  bound : Nat → List Bool
  home : Fin ports → Nat × Nat

namespace Fleet

variable (f : Fleet)

def first : Fin f.ports := ⟨0, f.pos⟩

/-- `(worker_idx + 1) % worker_count`. -/
def next (workerIdx : Fin f.ports) : Fin f.ports := ⟨(workerIdx + 1) % f.ports, Nat.mod_lt _ f.pos⟩

/-- There is a socket that was bound behind the port. -/
def Listens (p : Fin f.ports) : Prop := (f.bound (f.home p).1).getD (f.home p).2 false = true

end Fleet

/-- What is between a socket of the distributor and the worker. -/
inductive Wire where
  | idle
  | request (msg : Bytes)
  | reply (bytes : Bytes)
  deriving DecidableEq, Repr

/-- Where the distributor is: before the next `zmq_send` of a phase, or in the `zmq_recv` behind
it. -/
inductive Stage (f : Fleet) where
  | map (chunks : List Bytes) (workerIdx : Fin f.ports) (mapResults : Bytes)
  | mapReply (chunks : List Bytes) (workerIdx : Fin f.ports) (mapResults : Bytes)
  | reduce (data : Bytes) (workerIdx : Fin f.ports) (reduceResults : Bytes)
  | reduceReply (data : Bytes) (workerIdx : Fin f.ports) (reduceResults : Bytes)
  | rip (i : Nat)
  | ripReply (i : Fin f.ports)
  | done

structure Cluster (f : Fleet) where
  stage : Stage f
  printed : Option Bytes
  wires : Fin f.ports → Wire
  workers : Nat → Sockets
  served : Nat

/-- A step of the distributor, or of the worker that listens on a port. -/
inductive Turn (f : Fleet) where
  | distributor
  | worker (p : Fin f.ports)
  deriving DecidableEq, Repr

namespace Cluster

variable {f : Fleet}

def start (f : Fleet) (file : Bytes) : Cluster f :=
  ⟨.map (chunks file) f.first [], none, fun _ => .idle, fun w => .start (f.bound w), 0⟩

/-- `zmq_send` on a `REQ` socket, which has its turn when nothing is outstanding. -/
def send (s : Cluster f) (i : Fin f.ports) (msg : Bytes) (stage : Stage f) : Option (Outcome (Cluster f)) :=
  match s.wires i with
  | .idle => some (.returns { s with wires := Function.update s.wires i (.request msg), stage := stage })
  | _ => none

/-- `zmq_recv`, which waits for the reply; then the zero is written behind it. -/
def recv (s : Cluster f) (i : Fin f.ports) (stage : Bytes → Stage f) : Option (Outcome (Cluster f)) :=
  match s.wires i with
  | .reply bytes => some do
      let received ← receive maxMsgLen bytes
      return { s with wires := Function.update s.wires i .idle, stage := stage (cstr received) }
  | _ => none

/-- The `zmq_recv` of `distributor_send_rip`, which looks at nothing. -/
def drain (s : Cluster f) (i : Fin f.ports) (stage : Stage f) : Option (Outcome (Cluster f)) :=
  match s.wires i with
  | .reply _ => some (.returns { s with wires := Function.update s.wires i .idle, stage := stage })
  | _ => none

/-- The next step of the distributor, unless it has to wait. -/
def advance (s : Cluster f) : Option (Outcome (Cluster f)) :=
  match s.stage with
  | .map [] _ mapResults => some (.returns { s with stage := .reduce mapResults f.first [] })
  | .map (chunk :: chunks) workerIdx mapResults =>
      s.send workerIdx (mapFrame chunk) (.mapReply chunks workerIdx mapResults)
  | .mapReply chunks workerIdx mapResults =>
      s.recv workerIdx fun text => .map chunks (f.next workerIdx) (mapResults ++ text)
  | .reduce data workerIdx reduceResults =>
      if data = [] then some (.returns { s with stage := .rip 0, printed := some (combineAndPrint reduceResults) })
      else s.send workerIdx (frame "red" (data.take (toCopy data)))
        (.reduceReply (data.drop (toCopy data)) workerIdx reduceResults)
  | .reduceReply data workerIdx reduceResults =>
      s.recv workerIdx fun text => .reduce data (f.next workerIdx) (reduceResults ++ text)
  | .rip i =>
      if h : i < f.ports then s.send ⟨i, h⟩ (ascii "rip" ++ [0]) (.ripReply ⟨i, h⟩)
      else some (.returns { s with stage := .done })
  | .ripReply i => s.drain i (.rip (i + 1))
  | .done => none

/-- What went out last on a socket of a worker. -/
def lastSent (w : Sockets) : Wire :=
  match w.sent.getLast? with
  | some (_, bytes) => .reply bytes
  | none => .idle

/-- The worker behind a port comes to that socket and finds the message, while it is in its
loop. -/
def serve (zmq : ZmqRecv) (memory : Nat → Memory) (s : Cluster f) (p : Fin f.ports) : Option (Outcome (Cluster f)) :=
  match s.wires p with
  | .request msg =>
      let worker := (f.home p).1
      let slot := (f.home p).2
      if 0 < (s.workers worker).active ∧ (s.workers worker).reps.getD slot false = true then some do
        let w ← WordCount.serve zmq (s.workers worker) slot (.message msg (memory s.served))
        return { s with
          wires := Function.update s.wires p (lastSent w)
          workers := Function.update s.workers worker w
          served := s.served + 1 }
      else none
  | _ => none

/-- What a turn comes to, if it is possible. -/
def act (zmq : ZmqRecv) (memory : Nat → Memory) (s : Cluster f) : Turn f → Option (Outcome (Cluster f))
  | .distributor => s.advance
  | .worker p => s.serve zmq memory p

def step (zmq : ZmqRecv) (memory : Nat → Memory) (s : Cluster f) (turn : Turn f) : Option (Cluster f) :=
  match s.act zmq memory turn with
  | some (.returns s') => some s'
  | _ => none

end Cluster

/-! ### What is left to do -/

section Rest

variable (exchange : Nat → Bytes → Outcome Reply)

/-- From the map phase on, with the exchange `k` the next one. -/
def restMap (k : Nat) (results : Bytes) (cs : List Bytes) : Outcome Bytes := do
  let more ← mapPhase exchange 0 k cs
  let reduceResults ← reducePhase exchange 0 ((results ++ more).length + 1) (k + cs.length) (results ++ more)
  return combineAndPrint reduceResults

/-- From the reduce phase on. -/
def restReduce (k : Nat) (results data : Bytes) : Outcome Bytes := do
  let more ← reducePhase exchange 0 (data.length + 1) k data
  return combineAndPrint (results ++ more)

theorem restMap_chunks (file : Bytes) : restMap exchange 0 [] (chunks file) = distributeIn exchange file := by
  simp only [restMap, distributeIn, List.nil_append, Nat.zero_add]

theorem restMap_nil (k : Nat) (results : Bytes) : restMap exchange k results [] = restReduce exchange k [] results := by
  simp only [restMap, restReduce, mapPhase, returns_bind, List.append_nil, List.length_nil, Nat.add_zero,
    List.nil_append]

theorem restMap_cons (k : Nat) (results c : Bytes) (cs : List Bytes) : restMap exchange k results (c :: cs)
    = request (exchange k) (mapFrame c) >>= fun text => restMap exchange (k + 1) (results ++ text) cs := by
  have hlen : k + (c :: cs).length = k + 1 + cs.length := by
    rw [List.length_cons]
    omega
  simp only [restMap, mapPhase, Nat.mod_zero, Outcome.bind_assoc, pure_eq, returns_bind, hlen, List.append_assoc]

theorem toCopy_pos {data : Bytes} (h : data ≠ []) : 0 < toCopy data := by
  have hpos := List.length_pos_iff.mpr h
  have hmax : payloadMax = 1493 := rfl
  simp only [toCopy]
  split
  · split
    next hsafe => exact hsafe.1
    next => omega
  · exact hpos

theorem drop_toCopy {data : Bytes} (h : data ≠ []) : (data.drop (toCopy data)).length < data.length := by
  have hpos := List.length_pos_iff.mpr h
  have hcopy := toCopy_pos h
  rw [List.length_drop]
  omega

/-- More turns than there are bytes left make no difference. -/
theorem reducePhase_turns (turns : Nat) : ∀ {more k : Nat} {data : Bytes}, data.length < turns → data.length < more →
    reducePhase exchange 0 turns k data = reducePhase exchange 0 more k data := by
  induction turns with
  | zero => intro more k data h; omega
  | succ turns ih =>
      intro more k data h hmore
      obtain ⟨more, rfl⟩ := Nat.exists_eq_succ_of_ne_zero (Nat.ne_zero_of_lt hmore)
      rw [reducePhase, reducePhase]
      by_cases hdata : data = []
      · rw [if_pos hdata, if_pos hdata]
      · have hdrop := drop_toCopy hdata
        rw [if_neg hdata, if_neg hdata, @ih more _ _ (by omega) (by omega)]

theorem restReduce_nil (k : Nat) (results : Bytes) :
    restReduce exchange k results [] = .returns (combineAndPrint results) := by
  simp only [restReduce, reducePhase, if_true, returns_bind, List.append_nil, pure_eq]

theorem restReduce_cons (k : Nat) (results : Bytes) {data : Bytes} (h : data ≠ []) : restReduce exchange k results data
    = request (exchange k) (frame "red" (data.take (toCopy data))) >>= fun text =>
        restReduce exchange (k + 1) (results ++ text) (data.drop (toCopy data)) := by
  have hturns : ∀ k, reducePhase exchange 0 data.length k (data.drop (toCopy data))
      = reducePhase exchange 0 ((data.drop (toCopy data)).length + 1) k (data.drop (toCopy data)) :=
    fun k => reducePhase_turns exchange _ (drop_toCopy h) (Nat.lt_succ_self _)
  simp only [restReduce, reducePhase, if_neg h, Nat.mod_zero, hturns, Outcome.bind_assoc, pure_eq, returns_bind,
    List.append_assoc]

end Rest

/-! ### What holds all along -/

/-- The port whose reply the distributor waits for. -/
def Stage.asks {f : Fleet} : Stage f → Option (Fin f.ports)
  | .mapReply _ i _ => some i
  | .reduceReply _ i _ => some i
  | .ripReply i => some i
  | _ => none

theorem Stage.asks_cases {f : Fleet} {stage : Stage f} {i : Fin f.ports} (h : stage.asks = some i) :
    (∃ chunks mapResults, stage = .mapReply chunks i mapResults) ∨
      (∃ data reduceResults, stage = .reduceReply data i reduceResults) ∨ stage = .ripReply i := by
  cases stage with
  | mapReply chunks j mapResults =>
      obtain rfl := Option.some.inj h
      exact Or.inl ⟨chunks, mapResults, rfl⟩
  | reduceReply data j reduceResults =>
      obtain rfl := Option.some.inj h
      exact Or.inr (Or.inl ⟨data, reduceResults, rfl⟩)
  | ripReply j =>
      obtain rfl := Option.some.inj h
      exact Or.inr (Or.inr rfl)
  | map _ _ _ => cases h
  | reduce _ _ _ => cases h
  | rip _ => cases h
  | done => cases h

/-- The distributor is through with its phases. -/
def Stage.through {f : Fleet} : Stage f → Bool
  | .rip _ => true
  | .ripReply _ => true
  | .done => true
  | _ => false

/-- What is still to come on a socket. -/
def Wire.due : Wire → Nat
  | .idle => 0
  | .request _ => 2
  | .reply _ => 1

namespace Cluster

variable {f : Fleet} (exchange : Nat → Bytes → Outcome Reply)

/-- The text that comes back on a socket. -/
def text (s : Cluster f) (i : Fin f.ports) : Outcome Bytes :=
  match s.wires i with
  | .idle => .diverges
  | .request msg => request (exchange s.served) msg
  | .reply bytes => do
      let received ← receive maxMsgLen bytes
      return cstr received

/-- The number of the exchange behind the one that is on its way. -/
def behind (s : Cluster f) (i : Fin f.ports) : Nat :=
  match s.wires i with
  | .request _ => s.served + 1
  | _ => s.served

/-- What will have been printed. -/
def rest (s : Cluster f) : Outcome Bytes :=
  match s.stage with
  | .map chunks _ mapResults => restMap exchange s.served mapResults chunks
  | .mapReply chunks i mapResults =>
      s.text exchange i >>= fun text => restMap exchange (s.behind i) (mapResults ++ text) chunks
  | .reduce data _ reduceResults => restReduce exchange s.served reduceResults data
  | .reduceReply data i reduceResults =>
      s.text exchange i >>= fun text => restReduce exchange (s.behind i) (reduceResults ++ text) data
  | _ => .returns (s.printed.getD [])

/-- How many turns there are at most from here on. -/
def left (s : Cluster f) : Nat :=
  match s.stage with
  | .map chunks _ mapResults => 4500 * chunks.length + 3 * mapResults.length + 3 * f.ports + 3
  | .mapReply chunks i mapResults =>
      4500 * chunks.length + 3 * mapResults.length + 4497 + (s.wires i).due + 3 * f.ports + 3
  | .reduce data _ _ => 3 * data.length + 3 * f.ports + 2
  | .reduceReply data i _ => 3 * data.length + (s.wires i).due + 3 * f.ports + 2
  | .rip i => 3 * (f.ports - i) + 1
  | .ripReply i => 3 * (f.ports - (i + 1)) + 1 + (s.wires i).due
  | .done => 0

/-- The worker has answered the `rip` to this port. -/
def Ripped (s : Cluster f) (p : Fin f.ports) : Prop :=
  match s.stage with
  | .rip i => p < i
  | .ripReply i => p < i ∨ p = i ∧ ∃ bytes, s.wires p = .reply bytes
  | .done => True
  | _ => False

/-- The messages are as they should be: none but for the port that the distributor asks, whose
request has room in the worker's buffer and is a `rip` when it is time for that. -/
structure Quiet (s : Cluster f) : Prop where
  idle : ∀ p, s.stage.asks ≠ some p → s.wires p = .idle
  busy : ∀ p, s.stage.asks = some p → s.wires p ≠ .idle
  request : ∀ p msg, s.wires p = .request msg → msg.length < recvBufferSize ∧ (kind msg = .rip ↔ s.stage.through)

/-- The sockets are as they should be: those that were bound are open, but for the ones that a
`rip` was answered on, and each of these belongs to one port. -/
structure Closing (s : Cluster f) : Prop where
  balanced : ∀ w, Balanced (s.workers w)
  sockets : ∀ w slot, (s.workers w).reps.getD slot false = true ↔
    (f.bound w).getD slot false = true ∧ ∀ p, f.home p = (w, slot) → ¬ s.Ripped p
  listened : ∀ p, s.Ripped p → f.Listens p
  distinct : ∀ p q, s.Ripped p → s.Ripped q → f.home p = f.home q → p = q

/-- The state is on its way to printing `out`. -/
structure Steady (out : Bytes) (s : Cluster f) : Prop where
  quiet : s.Quiet
  closing : s.Closing
  rest : s.rest exchange = .returns out
  printed : s.printed.isSome = s.stage.through

variable {exchange} {s : Cluster f} {i : Fin f.ports} {stage : Stage f}

/-! ### The messages -/

theorem Quiet.start (file : Bytes) : (start f file).Quiet :=
  ⟨fun _ _ => rfl, fun _ h => absurd h.symm (Option.some_ne_none _), fun _ _ h => by cases h⟩

theorem Quiet.free (h : s.Quiet) (hasks : s.stage.asks = none) (p : Fin f.ports) : s.wires p = .idle :=
  h.idle p (by rw [hasks]; exact (Option.some_ne_none p).symm)

/-- A message is for the port that is asked. -/
theorem Quiet.asks (h : s.Quiet) {p : Fin f.ports} (hp : s.wires p ≠ .idle) : s.stage.asks = some p := by
  by_contra hnot
  exact hp (h.idle p hnot)

theorem Quiet.asks_of_request (h : s.Quiet) {p : Fin f.ports} {msg : Bytes} (hp : s.wires p = .request msg) :
    s.stage.asks = some p := by
  refine h.asks ?_
  rw [hp]
  intro hc
  cases hc

/-- The distributor goes on without a message. -/
theorem Quiet.go (h : s.Quiet) (hasks : s.stage.asks = none) (hstage : stage.asks = none) (printed : Option Bytes) :
    ({ s with stage := stage, printed := printed } : Cluster f).Quiet := by
  refine ⟨fun p _ => h.free hasks p, ?_, ?_⟩
  · intro p hp
    rw [hstage] at hp
    exact absurd hp.symm (Option.some_ne_none p)
  · intro p msg hp
    rw [h.free hasks p] at hp
    cases hp

theorem Quiet.send (h : s.Quiet) (hasks : s.stage.asks = none) (hstage : stage.asks = some i) {msg : Bytes}
    (hroom : msg.length < recvBufferSize) (hkind : kind msg = .rip ↔ stage.through) :
    ({ s with wires := Function.update s.wires i (.request msg), stage := stage } : Cluster f).Quiet := by
  refine ⟨?_, ?_, ?_⟩
  · intro p hp
    rw [hstage] at hp
    have hne : p ≠ i := fun hc => hp (by rw [hc])
    exact (Function.update_of_ne hne _ _).trans (h.free hasks p)
  · intro p hp
    rw [hstage, Option.some.injEq] at hp
    subst hp
    show Function.update s.wires i _ i ≠ _
    rw [Function.update_self]
    intro hc
    cases hc
  · intro p msg' hp
    by_cases hpi : p = i
    · subst hpi
      change Function.update s.wires p _ p = _ at hp
      rw [Function.update_self] at hp
      obtain rfl := Wire.request.inj hp
      exact ⟨hroom, hkind⟩
    · change Function.update s.wires i _ p = _ at hp
      rw [Function.update_of_ne hpi, h.free hasks p] at hp
      cases hp

theorem Quiet.recv (h : s.Quiet) (hasks : s.stage.asks = some i) (hstage : stage.asks = none) :
    ({ s with wires := Function.update s.wires i .idle, stage := stage } : Cluster f).Quiet := by
  have hall : ∀ p, Function.update s.wires i .idle p = .idle := by
    intro p
    by_cases hpi : p = i
    · rw [hpi, Function.update_self]
    · rw [Function.update_of_ne hpi]
      refine h.idle p ?_
      rw [hasks]
      exact fun hc => hpi (Option.some.inj hc).symm
  refine ⟨fun p _ => hall p, ?_, ?_⟩
  · intro p hp
    rw [hstage] at hp
    exact absurd hp.symm (Option.some_ne_none p)
  · intro p msg hp
    have hidle := (hall p).symm.trans hp
    cases hidle

theorem Quiet.served (h : s.Quiet) (hasks : s.stage.asks = some i) (bytes : Bytes) (workers : Nat → Sockets)
    (served : Nat) :
    ({ s with wires := Function.update s.wires i (.reply bytes), workers := workers, served := served } : Cluster f).Quiet := by
  refine ⟨?_, ?_, ?_⟩
  · intro p hp
    have hne : p ≠ i := fun hc => hp (by rw [hc]; exact hasks)
    exact (Function.update_of_ne hne _ _).trans (h.idle p hp)
  · intro p hp
    obtain rfl := Option.some.inj (hasks.symm.trans hp)
    show Function.update s.wires i _ i ≠ _
    rw [Function.update_self]
    intro hc
    cases hc
  · intro p msg hp
    by_cases hpi : p = i
    · subst hpi
      change Function.update s.wires p _ p = _ at hp
      rw [Function.update_self] at hp
      cases hp
    · change Function.update s.wires i _ p = _ at hp
      rw [Function.update_of_ne hpi] at hp
      exact h.request p msg hp

/-! ### The sockets -/

theorem Closing.start (file : Bytes) : (start f file).Closing := by
  refine ⟨fun w => start_balanced (f.bound w), ?_, fun p hp => hp.elim, fun p q hp => hp.elim⟩
  intro w slot
  exact ⟨fun h => ⟨h, fun p _ hp => hp.elim⟩, fun h => h.1⟩

/-- Only a `rip` that is answered changes anything about the sockets. -/
theorem Closing.congr {s' : Cluster f} (h : s.Closing) (hworkers : s'.workers = s.workers)
    (hripped : ∀ p, s'.Ripped p ↔ s.Ripped p) : s'.Closing := by
  refine ⟨?_, ?_, ?_, ?_⟩
  · intro w
    rw [hworkers]
    exact h.balanced w
  · intro w slot
    simp only [hworkers, h.sockets w slot, hripped]
  · intro p hp
    exact h.listened p ((hripped p).mp hp)
  · intro p q hp hq
    exact h.distinct p q ((hripped p).mp hp) ((hripped q).mp hq)

theorem reply_reps (w : Sockets) (slot : Nat) (reply : Reply) :
    (w.reply slot reply).reps = if reply.closes then w.reps.set slot false else w.reps := by
  rw [Sockets.reply]
  split
  · rfl
  · rfl

theorem lastSent_reply (w : Sockets) (slot : Nat) (reply : Reply) : lastSent (w.reply slot reply) = .reply reply.bytes := by
  have hsent : (w.reply slot reply).sent = w.sent ++ [(slot, reply.bytes)] := by
    rw [Sockets.reply]
    split
    · rfl
    · rfl
  rw [lastSent, hsent, List.getLast?_concat]

/-- The worker behind the port has sent a reply. -/
def answered (s : Cluster f) (i : Fin f.ports) (reply : Reply) : Cluster f :=
  { s with
    wires := Function.update s.wires i (.reply reply.bytes)
    workers := Function.update s.workers (f.home i).1 ((s.workers (f.home i).1).reply (f.home i).2 reply)
    served := s.served + 1 }

/-- The sockets of the workers, with the reply sent. -/
theorem answered_balanced (h : s.Closing)
    (hopen : (s.workers (f.home i).1).reps.getD (f.home i).2 false = true) (reply : Reply) (w : Nat) :
    Balanced ((s.answered i reply).workers w) := by
  by_cases hw : w = (f.home i).1
  · subst hw
    show Balanced (Function.update s.workers _ _ _)
    rw [Function.update_self]
    exact reply_balanced (h.balanced _) hopen reply
  · show Balanced (Function.update s.workers _ _ w)
    rw [Function.update_of_ne hw]
    exact h.balanced w

theorem answered_reps (s : Cluster f) (i : Fin f.ports) (reply : Reply) (w slot : Nat) :
    ((s.answered i reply).workers w).reps.getD slot false = true ↔
      (s.workers w).reps.getD slot false = true ∧ ¬ (reply.closes = true ∧ f.home i = (w, slot)) := by
  by_cases hw : w = (f.home i).1
  · subst hw
    have hworker : (s.answered i reply).workers (f.home i).1
        = (s.workers (f.home i).1).reply (f.home i).2 reply := Function.update_self ..
    rw [hworker, reply_reps]
    cases reply.closes with
    | false => simp
    | true =>
        have hhome : f.home i = ((f.home i).1, slot) ↔ (f.home i).2 = slot := by
          rw [Prod.ext_iff]
          exact and_iff_right rfl
        rw [if_pos rfl, List.getD_eq_getElem?_getD, List.getD_eq_getElem?_getD, List.getElem?_set, hhome]
        by_cases hslot : (f.home i).2 = slot
        · rw [if_pos hslot]
          refine iff_of_false ?_ fun hc => hc.2 ⟨rfl, hslot⟩
          split
          · exact Bool.false_ne_true
          · exact Bool.false_ne_true
        · rw [if_neg hslot]
          exact (and_iff_left fun hc => hslot hc.2).symm
  · have hworker : (s.answered i reply).workers w = s.workers w := Function.update_of_ne hw _ _
    rw [hworker]
    refine (and_iff_left ?_).symm
    rintro ⟨-, hhome⟩
    rw [hhome] at hw
    exact hw rfl

/-- **A reply that closes nothing.** -/
theorem Closing.answered (h : s.Closing) (hopen : (s.workers (f.home i).1).reps.getD (f.home i).2 false = true)
    {reply : Reply} (hcloses : reply.closes = false) (hripped : ∀ p, (s.answered i reply).Ripped p ↔ s.Ripped p) :
    (s.answered i reply).Closing := by
  refine ⟨answered_balanced h hopen reply, ?_, ?_, ?_⟩
  · intro w slot
    rw [answered_reps, hcloses, and_iff_left fun hc => Bool.false_ne_true hc.1]
    simp only [h.sockets w slot, hripped]
  · intro p hp
    exact h.listened p ((hripped p).mp hp)
  · intro p q hp hq
    exact h.distinct p q ((hripped p).mp hp) ((hripped q).mp hq)

/-- **The reply to a `rip`** closes the socket of its port, which no other port had. -/
theorem Closing.ripped (h : s.Closing) (hopen : (s.workers (f.home i).1).reps.getD (f.home i).2 false = true)
    {reply : Reply} (hcloses : reply.closes = true)
    (hripped : ∀ p, (s.answered i reply).Ripped p ↔ s.Ripped p ∨ p = i) : (s.answered i reply).Closing := by
  obtain ⟨hlistens, hfirst⟩ := (h.sockets _ _).mp hopen
  refine ⟨answered_balanced h hopen reply, ?_, ?_, ?_⟩
  · intro w slot
    rw [answered_reps, h.sockets w slot, hcloses]
    constructor
    · rintro ⟨⟨hbound, hnone⟩, hother⟩
      refine ⟨hbound, ?_⟩
      intro p hp hc
      rcases (hripped p).mp hc with hc | rfl
      · exact hnone p hp hc
      · exact hother ⟨rfl, hp⟩
    · rintro ⟨hbound, hnone⟩
      refine ⟨⟨hbound, fun p hp hc => hnone p hp ((hripped p).mpr (Or.inl hc))⟩, ?_⟩
      rintro ⟨-, hhome⟩
      exact hnone i hhome ((hripped i).mpr (Or.inr rfl))
  · intro p hp
    rcases (hripped p).mp hp with hp | rfl
    · exact h.listened p hp
    · exact hlistens
  · intro p q hp hq hhome
    rcases (hripped p).mp hp with hold | rfl
    · rcases (hripped q).mp hq with hold' | rfl
      · exact h.distinct p q hold hold' hhome
      · exact absurd hold (hfirst p hhome)
    · rcases (hripped q).mp hq with hold' | rfl
      · exact absurd hold' (hfirst q hhome.symm)
      · rfl

/-! ### The distributor -/

theorem frame_take {type : String} (htype : (ascii type).length = 3) (text : Bytes) :
    (frame type text).take 3 = ascii type := by
  rw [← frame_cstr, frame_eq htype (zero_notMem_cstr text), List.take_left' htype]

theorem frame_short (type : String) (text : Bytes) : (frame type text).length < recvBufferSize :=
  Nat.lt_of_le_of_lt (frame_length_le type text) (by decide)

/-- Neither of the two phases sends a `rip`. -/
theorem kind_frame {type : String} (htype : (ascii type).length = 3) (hrip : ascii type ≠ ascii "rip") (text : Bytes) :
    kind (frame type text) ≠ .rip := by
  rw [kind, frame_take htype]
  intro hc
  split at hc
  · cases hc
  · split at hc
    · cases hc
    · cases hc

theorem send_eq (hidle : s.wires i = .idle) (msg : Bytes) (stage : Stage f) : s.send i msg stage
    = some (.returns { s with wires := Function.update s.wires i (.request msg), stage := stage }) := by
  rw [send, hidle]

/-- **A reply comes in whole**, since what follows from it has been worked out. -/
theorem recv_returns {next : Bytes → Stage f} {r : Outcome (Cluster f)} {g : Bytes → Outcome Bytes} {out : Bytes}
    (hact : s.recv i next = some r) (hrest : (s.text exchange i >>= g) = .returns out) :
    ∃ bytes text, s.wires i = .reply bytes ∧ g text = .returns out ∧ text.length ≤ 1499 ∧
      r = .returns { s with wires := Function.update s.wires i .idle, stage := next text } := by
  rw [recv] at hact
  cases hwire : s.wires i with
  | idle => rw [hwire] at hact; cases hact
  | request msg => rw [hwire] at hact; cases hact
  | reply bytes =>
      have hmax : maxMsgLen = 1500 := rfl
      have htext : s.text exchange i = receive maxMsgLen bytes >>= fun received => .returns (cstr received) := by
        rw [text, hwire]
        rfl
      rw [hwire] at hact
      obtain rfl := Option.some.inj hact
      by_cases hlong : maxMsgLen ≤ bytes.length
      · rw [htext, receive, if_pos hlong] at hrest
        cases hrest
      · rw [htext, receive, if_neg hlong] at hrest
        refine ⟨bytes, cstr (bytes ++ [0]), rfl, hrest, ?_, ?_⟩
        · have hle := cstr_length_le bytes
          rw [cstr_front]
          omega
        · rw [receive, if_neg hlong]
          rfl

/-- **A step of the distributor** comes to its end, and is one of those that are left. -/
theorem Steady.advance {out : Bytes} (h : s.Steady exchange out) {r : Outcome (Cluster f)}
    (hact : s.advance = some r) : ∃ s', r = .returns s' ∧ s'.Steady exchange out ∧ s'.left + 1 ≤ s.left := by
  obtain ⟨stage, printed, wires, workers, served⟩ := s
  have hrest := h.rest
  have hprinted := h.printed
  cases stage with
  | map chunks workerIdx mapResults =>
      cases chunks with
      | nil =>
          obtain rfl := Option.some.inj hact
          refine ⟨_, rfl, ⟨h.quiet.go rfl rfl printed, h.closing.congr rfl fun p => Iff.rfl, ?_, hprinted⟩, ?_⟩
          · exact (restMap_nil exchange served mapResults).symm.trans hrest
          · simp only [left, List.length_nil]
            omega
      | cons chunk chunks =>
          have hidle := h.quiet.free rfl workerIdx
          have hshort : (mapFrame chunk).length < recvBufferSize := frame_short "map" chunk
          have hkind : kind (mapFrame chunk) ≠ .rip := kind_frame rfl (by decide) chunk
          obtain rfl := Option.some.inj ((send_eq hidle _ _).symm.trans hact)
          refine ⟨_, rfl, ⟨h.quiet.send rfl rfl hshort (iff_of_false hkind Bool.false_ne_true),
            h.closing.congr rfl fun p => Iff.rfl, ?_, hprinted⟩, ?_⟩
          · refine Eq.trans ?_ ((restMap_cons exchange served mapResults chunk chunks).symm.trans hrest)
            simp only [Cluster.rest, text, behind, Function.update_self]
          · simp only [left, Function.update_self, Wire.due, List.length_cons]
            omega
  | mapReply chunks workerIdx mapResults =>
      simp only [Cluster.advance] at hact
      obtain ⟨bytes, text, hwire, hrest', hlen, rfl⟩ := recv_returns hact hrest
      change wires workerIdx = _ at hwire
      refine ⟨_, rfl, ⟨h.quiet.recv rfl rfl, h.closing.congr rfl fun p => Iff.rfl, ?_, hprinted⟩, ?_⟩
      · simp only [behind, hwire] at hrest'
        exact hrest'
      · simp only [left, hwire, Wire.due, List.length_append]
        omega
  | reduce data workerIdx reduceResults =>
      simp only [Cluster.advance] at hact
      by_cases hdata : data = []
      · subst hdata
        rw [if_pos rfl] at hact
        obtain rfl := Option.some.inj hact
        refine ⟨_, rfl, ⟨h.quiet.go rfl rfl _, h.closing.congr rfl fun p => ?_, ?_, rfl⟩, ?_⟩
        · exact iff_of_false (Nat.not_lt_zero _) id
        · exact (restReduce_nil exchange served reduceResults).symm.trans hrest
        · simp only [left]
          omega
      · have hidle := h.quiet.free rfl workerIdx
        have hdrop := drop_toCopy hdata
        have hkind : kind (frame "red" (data.take (toCopy data))) ≠ .rip := kind_frame rfl (by decide) _
        rw [if_neg hdata, send_eq hidle] at hact
        obtain rfl := Option.some.inj hact
        refine ⟨_, rfl, ⟨h.quiet.send rfl rfl (frame_short "red" _) (iff_of_false hkind Bool.false_ne_true),
          h.closing.congr rfl fun p => Iff.rfl, ?_, hprinted⟩, ?_⟩
        · refine Eq.trans ?_ ((restReduce_cons exchange served reduceResults hdata).symm.trans hrest)
          simp only [Cluster.rest, text, behind, Function.update_self]
        · simp only [left, Function.update_self, Wire.due]
          omega
  | reduceReply data workerIdx reduceResults =>
      simp only [Cluster.advance] at hact
      obtain ⟨bytes, text, hwire, hrest', hlen, rfl⟩ := recv_returns hact hrest
      change wires workerIdx = _ at hwire
      refine ⟨_, rfl, ⟨h.quiet.recv rfl rfl, h.closing.congr rfl fun p => Iff.rfl, ?_, hprinted⟩, ?_⟩
      · simp only [behind, hwire] at hrest'
        exact hrest'
      · simp only [left, hwire, Wire.due]
        omega
  | rip i =>
      simp only [Cluster.advance] at hact
      by_cases hi : i < f.ports
      · have hidle := h.quiet.free rfl ⟨i, hi⟩
        rw [dif_pos hi, send_eq hidle] at hact
        obtain rfl := Option.some.inj hact
        refine ⟨_, rfl, ⟨h.quiet.send rfl rfl (by decide) (iff_of_true (by decide) rfl), h.closing.congr rfl fun p => ?_,
          hrest, hprinted⟩, ?_⟩
        · refine or_iff_left ?_
          rintro ⟨rfl, bytes, hwire⟩
          simp only [Function.update_self] at hwire
          cases hwire
        · simp only [left, Function.update_self, Wire.due]
          omega
      · rw [dif_neg hi] at hact
        obtain rfl := Option.some.inj hact
        refine ⟨_, rfl, ⟨h.quiet.go rfl rfl _, h.closing.congr rfl fun p => ?_, hrest, hprinted⟩, ?_⟩
        · exact iff_of_true trivial (Nat.lt_of_lt_of_le p.isLt (Nat.le_of_not_lt hi))
        · simp only [left]
          omega
  | ripReply i =>
      simp only [Cluster.advance, drain] at hact
      cases hwire : wires i with
      | idle => rw [hwire] at hact; cases hact
      | request msg => rw [hwire] at hact; cases hact
      | reply bytes =>
          rw [hwire] at hact
          obtain rfl := Option.some.inj hact
          refine ⟨_, rfl, ⟨h.quiet.recv rfl rfl, h.closing.congr rfl fun p => ?_, hrest, hprinted⟩, ?_⟩
          · show (p : Nat) < i + 1 ↔ (p : Nat) < i ∨ p = i ∧ ∃ bytes, wires p = .reply bytes
            rw [Nat.lt_succ_iff_lt_or_eq]
            refine or_congr_right ⟨?_, fun hp => congrArg Fin.val hp.1⟩
            intro hp
            obtain rfl := Fin.ext hp
            exact ⟨rfl, bytes, hwire⟩
          · simp only [left, hwire, Wire.due]
            omega
  | done => cases hact

/-! ### The workers -/

section Workers

variable (zmq : ZmqRecv) (memory : Nat → Memory)

/-- **A worker sends the reply** to a message that has room in its buffer. -/
theorem serve_eq {msg : Bytes} (hwire : s.wires i = .request msg) (hlen : msg.length < recvBufferSize) :
    s.serve zmq memory i =
      if 0 < (s.workers (f.home i).1).active ∧ (s.workers (f.home i).1).reps.getD (f.home i).2 false = true then
        some (.returns (s.answered i ⟨answerText (memory s.served) msg ++ [0], decide (kind msg = .rip)⟩))
      else none := by
  rw [serve, hwire]
  by_cases hloop : 0 < (s.workers (f.home i).1).active ∧ (s.workers (f.home i).1).reps.getD (f.home i).2 false = true
  · simp only [if_pos hloop, serve_short zmq hloop.2 (memory s.served) hlen, returns_bind, lastSent_reply, pure_eq]
    rfl
  · simp only [if_neg hloop]

/-- What the distributor will find is the same before and after. -/
theorem answered_text {msg : Bytes} (hwire : s.wires i = .request msg) (hlen : msg.length < recvBufferSize) :
    (s.answered i ⟨answerText (memory s.served) msg ++ [0], decide (kind msg = .rip)⟩).text
        (fun k => handleIn zmq (memory k)) i = s.text (fun k => handleIn zmq (memory k)) i ∧
      (s.answered i ⟨answerText (memory s.served) msg ++ [0], decide (kind msg = .rip)⟩).behind i = s.behind i := by
  constructor
  · simp only [text, Cluster.answered, Function.update_self, hwire, request, handleIn_eq zmq _ hlen, returns_bind]
  · simp only [behind, Cluster.answered, Function.update_self, hwire]

/-- A reply on the way is one turn fewer. -/
theorem answered_left {msg : Bytes} (hwire : s.wires i = .request msg) (hasks : s.stage.asks = some i) (reply : Reply) :
    (s.answered i reply).left + 1 = s.left := by
  rcases Stage.asks_cases hasks with ⟨chunks, mapResults, hstage⟩ | ⟨data, reduceResults, hstage⟩ | hstage
  · simp only [left, Cluster.answered, hstage, hwire, Function.update_self, Wire.due]
    omega
  · simp only [left, Cluster.answered, hstage, hwire, Function.update_self, Wire.due]
    omega
  · simp only [left, Cluster.answered, hstage, hwire, Function.update_self, Wire.due]

/-- **What will have been printed stays the same.** -/
theorem answered_rest {msg : Bytes} (hwire : s.wires i = .request msg) (hasks : s.stage.asks = some i)
    (hlen : msg.length < recvBufferSize) :
    (s.answered i ⟨answerText (memory s.served) msg ++ [0], decide (kind msg = .rip)⟩).rest
        (fun k => handleIn zmq (memory k)) = s.rest (fun k => handleIn zmq (memory k)) := by
  obtain ⟨htext, hbehind⟩ := answered_text zmq memory hwire hlen
  generalize (⟨answerText (memory s.served) msg ++ [0], decide (kind msg = .rip)⟩ : Reply) = reply at htext hbehind ⊢
  have hsame : (s.answered i reply).stage = s.stage := rfl
  rcases Stage.asks_cases hasks with ⟨chunks, mapResults, hstage⟩ | ⟨data, reduceResults, hstage⟩ | hstage
  · simp only [Cluster.rest, hsame, hstage, htext, hbehind]
  · simp only [Cluster.rest, hsame, hstage, htext, hbehind]
  · simp only [Cluster.rest, hstage, Cluster.answered]

/-- **The port is ripped** with the reply, if the distributor is at that. -/
theorem answered_ripped {msg : Bytes} (hwire : s.wires i = .request msg) (hasks : s.stage.asks = some i)
    (reply : Reply) (p : Fin f.ports) :
    (s.answered i reply).Ripped p ↔ s.Ripped p ∨ s.stage.through = true ∧ p = i := by
  rcases Stage.asks_cases hasks with ⟨chunks, mapResults, hstage⟩ | ⟨data, reduceResults, hstage⟩ | hstage
  · simp only [Ripped, Cluster.answered, hstage, Stage.through, Bool.false_eq_true, false_and, or_false]
  · simp only [Ripped, Cluster.answered, hstage, Stage.through, Bool.false_eq_true, false_and, or_false]
  · simp only [Ripped, Cluster.answered, hstage, Stage.through, true_and]
    constructor
    · rintro (hp | ⟨rfl, -⟩)
      · exact Or.inl (Or.inl hp)
      · exact Or.inr rfl
    · rintro ((hp | ⟨rfl, bytes, hreply⟩) | rfl)
      · exact Or.inl hp
      · rw [hwire] at hreply
        cases hreply
      · exact Or.inr ⟨rfl, reply.bytes, Function.update_self ..⟩

/-- **A step of a worker** comes to its end, and is one of those that are left. -/
theorem Steady.serve {out : Bytes} (h : s.Steady (fun k => handleIn zmq (memory k)) out) {r : Outcome (Cluster f)}
    (hact : s.serve zmq memory i = some r) :
    ∃ s', r = .returns s' ∧ s'.Steady (fun k => handleIn zmq (memory k)) out ∧ s'.left + 1 ≤ s.left := by
  cases hwire : s.wires i with
  | idle => rw [Cluster.serve, hwire] at hact; cases hact
  | reply bytes => rw [Cluster.serve, hwire] at hact; cases hact
  | request msg =>
      obtain ⟨hlen, hkind⟩ := h.quiet.request i msg hwire
      have hasks := h.quiet.asks_of_request hwire
      rw [serve_eq zmq memory hwire hlen] at hact
      by_cases hloop : 0 < (s.workers (f.home i).1).active ∧ (s.workers (f.home i).1).reps.getD (f.home i).2 false = true
      · rw [if_pos hloop] at hact
        obtain rfl := Option.some.inj hact
        have hripped := answered_ripped hwire hasks
          ⟨answerText (memory s.served) msg ++ [0], decide (kind msg = .rip)⟩
        refine ⟨_, rfl, ⟨h.quiet.served hasks _ _ _, ?_, (answered_rest zmq memory hwire hasks hlen).trans h.rest, h.printed⟩,
          Nat.le_of_eq (answered_left hwire hasks _)⟩
        by_cases hthrough : s.stage.through = true
        · refine h.closing.ripped hloop.2 (decide_eq_true (hkind.mpr hthrough)) ?_
          intro p
          rw [hripped, and_iff_right hthrough]
        · refine h.closing.answered hloop.2 (decide_eq_false fun hrip => hthrough (hkind.mp hrip)) ?_
          intro p
          rw [hripped, or_iff_left fun hc => hthrough hc.1]
      · rw [if_neg hloop] at hact
        cases hact

/-! ### Whole runs -/

theorem steady_start {file out : Bytes} (h : distributeIn exchange file = .returns out) :
    (start f file).Steady exchange out :=
  ⟨Quiet.start file, Closing.start file, (restMap_chunks exchange file).trans h, rfl⟩

theorem Steady.act {out : Bytes} (h : s.Steady (fun k => handleIn zmq (memory k)) out) {turn : Turn f}
    {r : Outcome (Cluster f)} (hact : s.act zmq memory turn = some r) :
    ∃ s', r = .returns s' ∧ s'.Steady (fun k => handleIn zmq (memory k)) out ∧ s'.left + 1 ≤ s.left := by
  cases turn with
  | distributor => exact h.advance hact
  | worker p => exact h.serve zmq memory hact

theorem step_eq_some {s' : Cluster f} {turn : Turn f} :
    s.step zmq memory turn = some s' ↔ s.act zmq memory turn = some (.returns s') := by
  rw [step]
  cases s.act zmq memory turn with
  | none => simp
  | some r => cases r <;> simp

/-- **All states of a run are on the way**, and its turns are counted. -/
theorem run_steady {file out : Bytes}
    (h : distributeIn (fun k => handleIn zmq (memory k)) file = .returns out) {turns : List (Turn f)}
    (hrun : run (Cluster.step zmq memory) (start f file) turns = some s) :
    s.Steady (fun k => handleIn zmq (memory k)) out ∧
      turns.length ≤ 4500 * (chunks file).length + 3 * f.ports + 3 := by
  obtain ⟨a, ⟨hsteady, -⟩, hcost⟩ := run_budget
    (fun (t : Cluster f) a => t.Steady (fun k => handleIn zmq (memory k)) out ∧ t.left ≤ a) (fun _ => 1)
    (fun t turn t' a hleft hstep => by
      obtain ⟨hsteady, hle⟩ := hleft
      obtain ⟨_, hreturns, hsteady', hleft'⟩ := hsteady.act zmq memory ((step_eq_some zmq memory).mp hstep)
      obtain rfl := Outcome.returns.inj hreturns
      exact ⟨t'.left, ⟨hsteady', Nat.le_refl _⟩, by omega⟩)
    turns ⟨steady_start h, Nat.le_refl _⟩ hrun
  refine ⟨hsteady, ?_⟩
  have hlen : (turns.map fun _ => 1).sum = turns.length := by simp
  have hstart : (start f file).left = 4500 * (chunks file).length + 3 * f.ports + 3 := by
    simp only [left, start, List.length_nil]
    omega
  rw [hlen, hstart] at hcost
  omega

/-! ### Who has the turn -/

/-- A worker has it when the distributor waits for it. -/
theorem Quiet.worker (h : s.Quiet) {p : Fin f.ports} (hact : (s.act zmq memory (.worker p)).isSome = true) :
    s.stage.asks = some p ∧ ∃ msg, s.wires p = .request msg := by
  rw [Cluster.act, Cluster.serve] at hact
  cases hwire : s.wires p with
  | idle => rw [hwire] at hact; cases hact
  | reply bytes => rw [hwire] at hact; cases hact
  | request msg => exact ⟨h.asks_of_request hwire, msg, rfl⟩

theorem recv_isSome (next : Bytes → Stage f) :
    (s.recv i next).isSome = true ↔ ∃ bytes, s.wires i = .reply bytes := by
  rw [recv]
  cases s.wires i <;> simp

theorem drain_isSome : (s.drain i stage).isSome = true ↔ ∃ bytes, s.wires i = .reply bytes := by
  rw [drain]
  cases s.wires i <;> simp

/-- The distributor has it when it does not wait, or when the reply is there. -/
theorem Quiet.distributor (h : s.Quiet) : (s.act zmq memory .distributor).isSome = true ↔
    s.stage ≠ .done ∧ ∀ p, s.stage.asks = some p → ∃ bytes, s.wires p = .reply bytes := by
  have hfree : ∀ {stage : Stage f}, s.stage = stage → stage.asks = none → ∀ i, s.wires i = .idle :=
    fun hstage hasks => h.free (by rw [hstage, hasks])
  rw [Cluster.act, Cluster.advance]
  cases hstage : s.stage with
  | map chunks j mapResults =>
      refine iff_of_true ?_ ⟨(fun hc => by cases hc), fun p hp => absurd hp.symm (Option.some_ne_none p)⟩
      cases chunks with
      | nil => rfl
      | cons chunk chunks => simp only [send_eq (hfree hstage rfl j), Option.isSome_some]
  | mapReply chunks j mapResults =>
      simp only [recv_isSome, Stage.asks, Option.some.injEq, forall_eq']
      exact (and_iff_right (fun hc => by cases hc)).symm
  | reduce data j reduceResults =>
      refine iff_of_true ?_ ⟨(fun hc => by cases hc), fun p hp => absurd hp.symm (Option.some_ne_none p)⟩
      by_cases hdata : data = []
      · simp only [if_pos hdata, Option.isSome_some]
      · simp only [if_neg hdata, send_eq (hfree hstage rfl j), Option.isSome_some]
  | reduceReply data j reduceResults =>
      simp only [recv_isSome, Stage.asks, Option.some.injEq, forall_eq']
      exact (and_iff_right (fun hc => by cases hc)).symm
  | rip j =>
      refine iff_of_true ?_ ⟨(fun hc => by cases hc), fun p hp => absurd hp.symm (Option.some_ne_none p)⟩
      by_cases hj : j < f.ports
      · simp only [dif_pos hj, send_eq (hfree hstage rfl ⟨j, hj⟩), Option.isSome_some]
      · simp only [dif_neg hj, Option.isSome_some]
  | ripReply j =>
      simp only [drain_isSome, Stage.asks, Option.some.injEq, forall_eq']
      exact (and_iff_right (fun hc => by cases hc)).symm
  | done => exact iff_of_false Bool.false_ne_true fun hc => hc.1 rfl

/-- **Only one of them has the turn.** -/
theorem Quiet.turn_unique (h : s.Quiet) {turn turn' : Turn f} (hact : (s.act zmq memory turn).isSome = true)
    (hact' : (s.act zmq memory turn').isSome = true) : turn = turn' := by
  have hapart : ∀ {p}, (s.act zmq memory .distributor).isSome = true →
      ¬ (s.act zmq memory (.worker p)).isSome = true := by
    intro p hdistributor hworker
    obtain ⟨hasks, msg, hwire⟩ := h.worker zmq memory hworker
    obtain ⟨bytes, hreply⟩ := ((h.distributor zmq memory).mp hdistributor).2 p hasks
    rw [hwire] at hreply
    cases hreply
  cases turn with
  | distributor =>
      cases turn' with
      | distributor => rfl
      | worker q => exact absurd hact' (hapart hact)
  | worker p =>
      cases turn' with
      | distributor => exact absurd hact (hapart hact')
      | worker q =>
          obtain ⟨hp, -⟩ := h.worker zmq memory hact
          obtain ⟨hq, -⟩ := h.worker zmq memory hact'
          rw [Option.some.inj (hp.symm.trans hq)]

/-- **The worker that is asked has the turn**, if it listens on that port and on no other. -/
theorem Steady.worker_turn {out : Bytes} (h : s.Steady exchange out) {p : Fin f.ports} {msg : Bytes}
    (hwire : s.wires p = .request msg) (hinjective : Function.Injective f.home) (hlistens : f.Listens p) :
    (s.act zmq memory (.worker p)).isSome = true := by
  obtain ⟨hlen, -⟩ := h.quiet.request p msg hwire
  have hripped : ¬ s.Ripped p := by
    rw [Ripped]
    rcases Stage.asks_cases (h.quiet.asks_of_request hwire) with ⟨_, _, hstage⟩ | ⟨_, _, hstage⟩ | hstage
    · rw [hstage]
      exact id
    · rw [hstage]
      exact id
    · rw [hstage]
      rintro (hlt | ⟨-, bytes, hreply⟩)
      · exact Nat.lt_irrefl _ hlt
      · rw [hwire] at hreply
        cases hreply
  have hopen := (h.closing.sockets (f.home p).1 (f.home p).2).mpr ⟨hlistens, fun q hq => by rwa [hinjective hq]⟩
  have hactive : 0 < (s.workers (f.home p).1).active := by
    have hcount : 0 < (s.workers (f.home p).1).reps.count true := by
      rw [List.count_pos_iff]
      rw [List.getD_eq_getElem?_getD] at hopen
      cases hslot : (s.workers (f.home p).1).reps[(f.home p).2]? with
      | none => rw [hslot] at hopen; exact absurd hopen Bool.false_ne_true
      | some b =>
          rw [hslot, Option.getD_some] at hopen
          rw [← hopen]
          exact List.mem_of_getElem? hslot
    have hbalanced := h.closing.balanced (f.home p).1
    rw [Balanced] at hbalanced
    omega
  rw [Cluster.act, serve_eq zmq memory hwire hlen, if_pos ⟨hactive, hopen⟩]
  rfl

end Workers

end Cluster

/-! ### Main results -/

/-- Two ports of one worker. -/
def twoPorts : Fleet := ⟨2, Nat.succ_pos 1, fun _ => [true, true], fun p => (0, p)⟩

/-- A file of one chunk: a request in each phase, and the two `rip`s. -/
def twoPortsTurns : List (Turn twoPorts) :=
  [.distributor, .worker twoPorts.first, .distributor, .distributor, .distributor, .worker twoPorts.first, .distributor,
    .distributor, .distributor, .worker twoPorts.first, .distributor, .distributor,
    .worker (twoPorts.next twoPorts.first), .distributor, .distributor]

section Main

variable (zmq : ZmqRecv) (memory : Nat → Memory) (f : Fleet) (file : Bytes)

/-- **The processes do what the functions say.**  In every state of every run, whatever can happen
comes to its end without an overrun; only one process has the turn, and no more than one message is
on its way; and what is printed is what the functions come to, with the memory that the worker of
each exchange had. -/
theorem cluster_refines {turns : List (Turn f)} {s : Cluster f}
    (hrun : run (Cluster.step zmq memory) (Cluster.start f file) turns = some s) :
    (∀ turn r, s.act zmq memory turn = some r → ∃ s', r = .returns s') ∧
      (∀ turn turn', (s.act zmq memory turn).isSome = true → (s.act zmq memory turn').isSome = true → turn = turn') ∧
      (∀ p q, s.wires p ≠ .idle → s.wires q ≠ .idle → p = q) ∧
      ∀ printed, s.printed = some printed → distributeIn (fun k => handleIn zmq (memory k)) file = .returns printed := by
  obtain ⟨rs, -, hout, -⟩ := distributeIn_tokens zmq memory file
  obtain ⟨hsteady, -⟩ := Cluster.run_steady zmq memory hout hrun
  refine ⟨?_, fun _ _ => hsteady.quiet.turn_unique zmq memory, ?_, ?_⟩
  · intro turn r hact
    obtain ⟨s', hreturns, -⟩ := hsteady.act zmq memory hact
    exact ⟨s', hreturns⟩
  · intro p q hp hq
    exact Option.some.inj ((hsteady.quiet.asks hp).symm.trans (hsteady.quiet.asks hq))
  · intro printed hprinted
    have hthrough := hsteady.printed
    have hrest := hsteady.rest
    rw [hprinted] at hthrough
    rw [hout, ← hrest, Cluster.rest]
    cases hstage : s.stage with
    | map _ _ _ => rw [hstage] at hthrough; cases hthrough
    | mapReply _ _ _ => rw [hstage] at hthrough; cases hthrough
    | reduce _ _ _ => rw [hstage] at hthrough; cases hthrough
    | reduceReply _ _ _ => rw [hstage] at hthrough; cases hthrough
    | rip _ => simp only [hprinted, Option.getD_some]
    | ripReply _ => simp only [hprinted, Option.getD_some]
    | done => simp only [hprinted, Option.getD_some]

theorem cluster_refines_two : ∃ s : Cluster twoPorts,
    run (Cluster.step .truncating oneNode) (Cluster.start twoPorts (ascii "to be to")) twoPortsTurns = some s ∧
      s.printed = some (ascii "word,frequency\nto,2\n") ∧
      (∀ turn r, s.act .truncating oneNode turn = some r → ∃ s', r = .returns s') ∧
      (∀ turn turn', (s.act .truncating oneNode turn).isSome = true →
        (s.act .truncating oneNode turn').isSome = true → turn = turn') ∧
      (∀ p q, s.wires p ≠ .idle → s.wires q ≠ .idle → p = q) ∧
      ∀ printed, s.printed = some printed →
        distributeIn (fun k => handleIn .truncating (oneNode k)) (ascii "to be to") = .returns printed := by
  have hprinted : (run (Cluster.step .truncating oneNode) (Cluster.start twoPorts (ascii "to be to"))
      twoPortsTurns).map Cluster.printed = some (some (ascii "word,frequency\nto,2\n")) := by
    decide +kernel
  obtain ⟨s, hrun, hprinted⟩ := Option.map_eq_some_iff.mp hprinted
  exact ⟨s, hrun, hprinted, cluster_refines .truncating oneNode twoPorts (ascii "to be to") hrun⟩

/-- **The distributor comes to its end exactly when** a worker listens on each of its ports, and no
port was given twice.  No run is longer than the file and the number of ports allow, so it is
enough that none gets stuck.  And at the end everything is closed that was reached, what was not is
as it was, and a worker all of whose sockets were reached has left its loop. -/
theorem cluster_finishes_iff :
    (∀ turns s, run (Cluster.step zmq memory) (Cluster.start f file) turns = some s →
      turns.length ≤ 4500 * (chunks file).length + 3 * f.ports + 3) ∧
    ((∀ turns s, run (Cluster.step zmq memory) (Cluster.start f file) turns = some s →
        s.stage = .done ∨ ∃ turn, (s.act zmq memory turn).isSome = true) ↔
      Function.Injective f.home ∧ ∀ p, f.Listens p) ∧
    ∀ turns s, run (Cluster.step zmq memory) (Cluster.start f file) turns = some s → s.stage = .done →
      (∃ printed, s.printed = some printed) ∧
      (∀ w slot, (s.workers w).reps.getD slot false = true ↔
        (f.bound w).getD slot false = true ∧ ∀ p, f.home p ≠ (w, slot)) ∧
      ∀ w, (∀ slot, (f.bound w).getD slot false = true → ∃ p, f.home p = (w, slot)) → (s.workers w).active = 0 := by
  obtain ⟨rs, -, hout, -⟩ := distributeIn_tokens zmq memory file
  have hsteady := fun (turns : List (Turn f)) (s : Cluster f)
    (hrun : run (Cluster.step zmq memory) (Cluster.start f file) turns = some s) =>
      Cluster.run_steady zmq memory hout hrun
  have hripped : ∀ {s : Cluster f}, s.stage = .done → ∀ p, s.Ripped p := by
    intro s hdone p
    rw [Cluster.Ripped, hdone]
    trivial
  refine ⟨fun turns s hrun => (hsteady turns s hrun).2, ⟨?_, ?_⟩, ?_⟩
  · -- some run gets to the end, and there each port was answered on a socket of its own
    intro hgo
    obtain ⟨turns, s, hrun, hdone⟩ := @run_completes _ _ (Cluster.step zmq memory) (fun s => s.stage = .done)
      (Cluster.start f file) _ (fun turns s hrun => (hsteady turns s hrun).2) (by
        intro turns s hrun hnot
        obtain ⟨turn, hact⟩ := (hgo turns s hrun).resolve_left hnot
        obtain ⟨r, hact⟩ := Option.isSome_iff_exists.mp hact
        obtain ⟨s', rfl, -⟩ := (hsteady turns s hrun).1.act zmq memory hact
        exact ⟨turn, s', (Cluster.step_eq_some zmq memory).mpr hact⟩)
    have hclosing := (hsteady turns s hrun).1.closing
    exact ⟨fun p q hhome => hclosing.distinct p q (hripped hdone p) (hripped hdone q) hhome,
      fun p => hclosing.listened p (hripped hdone p)⟩
  · rintro ⟨hinjective, hlistens⟩ turns s hrun
    have h := (hsteady turns s hrun).1
    by_cases hdone : s.stage = .done
    · exact Or.inl hdone
    · refine Or.inr ?_
      by_cases hreply : ∀ p, s.stage.asks = some p → ∃ bytes, s.wires p = .reply bytes
      · exact ⟨.distributor, (h.quiet.distributor zmq memory).mpr ⟨hdone, hreply⟩⟩
      · push Not at hreply
        obtain ⟨p, hasks, hno⟩ := hreply
        obtain ⟨msg, hwire⟩ : ∃ msg, s.wires p = .request msg := by
          cases hwire : s.wires p with
          | idle => exact absurd hwire (h.quiet.busy p hasks)
          | request msg => exact ⟨msg, rfl⟩
          | reply bytes => exact absurd hwire (hno bytes)
        exact ⟨.worker p, h.worker_turn zmq memory hwire hinjective (hlistens p)⟩
  · intro turns s hrun hdone
    have h := (hsteady turns s hrun).1
    have hsockets : ∀ w slot, (s.workers w).reps.getD slot false = true ↔
        (f.bound w).getD slot false = true ∧ ∀ p, f.home p ≠ (w, slot) := by
      intro w slot
      rw [h.closing.sockets w slot]
      refine and_congr_right fun _ => forall_congr' fun p => ?_
      exact ⟨fun hnone hhome => hnone hhome (hripped hdone p), fun hne hhome => absurd hhome hne⟩
    refine ⟨?_, hsockets, ?_⟩
    · have hprinted := h.printed
      rw [hdone] at hprinted
      exact Option.isSome_iff_exists.mp hprinted
    · intro w hall
      have hbalanced := h.closing.balanced w
      have hnone : (s.workers w).reps.count true = 0 := by
        rw [List.count_eq_zero]
        intro hmem
        obtain ⟨slot, hslot⟩ := List.mem_iff_getElem?.mp hmem
        have hopen : (s.workers w).reps.getD slot false = true := by
          rw [List.getD_eq_getElem?_getD, hslot, Option.getD_some]
        obtain ⟨hbound, hother⟩ := (hsockets w slot).mp hopen
        obtain ⟨p, hp⟩ := hall slot hbound
        exact hother p hp
      rw [hbalanced, hnone]
      rfl

end Main

end ChordDht.WordCount
