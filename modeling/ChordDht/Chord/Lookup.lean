/-
Where a LOOKUP goes and what it turns into.

Every datagram in flight goes back to one LOOKUP.  `OnWay` says what is known of a
LOOKUP that is still travelling: it is byte for byte the one that was sent, it is
addressed to a node of the ring, and every node it has passed was farther from the
owner than the one it is going to.  The distance is what each forward decreases, so
nobody is visited twice and at most `size - 2` forwards happen.  `Answered` says what
it becomes: the REPLY that names the owner.

The network here neither loses nor duplicates.  What is conserved is then a
permutation: the serial numbers of the datagrams in flight and of the replies taken
in are the serial numbers of all LOOKUPs, each once.
-/
import ChordDht.Chord.Network

namespace ChordDht.Chord

open Arc Trace

/-! ### One LOOKUP -/

/-- A LOOKUP `m` on its way, addressed to `cur`, that will end at the owner `o`. -/
structure OnWay (r : Ring) (m : Message) (o cur : Fin r.size) (p : Flight r.size) : Prop where
  dgram : p.dgram = ⟨r.addr cur, r.port cur, m.bytes⟩
  nearer : ∀ t ∈ p.trail, ahead cur o < ahead t o
  nodup : p.trail.Nodup
  steps : p.trail.length + ahead cur o < r.size
  short : p.trail ≠ [] → cur ≠ o

/-- The LOOKUP is in flight unchanged, to a node it has not visited, and was forwarded
once by each node of its trail. -/
def Travels (r : Ring) (m : Message) (p : Flight r.size) : Prop :=
  ∃ cur, p.dgram = ⟨r.addr cur, r.port cur, m.bytes⟩ ∧ cur ∉ p.trail ∧ p.trail.Nodup ∧
    p.trail.length ≤ r.size - 2

/-- The LOOKUP has become the REPLY to whoever asked, which names the one owner of the
hash.  Of the nodes on its trail the last wrote the REPLY and the others forwarded. -/
def Answered (r : Ring) (m : Message) (p : Flight r.size) : Prop :=
  ∃ o, (∀ j, r.Owns j m.id ↔ j = o) ∧ p.dgram = ⟨m.ip, m.port, (r.replyNaming o).bytes⟩ ∧
    p.trail.Nodup ∧ p.trail ≠ [] ∧ p.trail.length - 1 ≤ r.size - 2

section OneLookup

variable {r : Ring} {m : Message} {o cur : Fin r.size} {p : Flight r.size}

theorem OnWay.notMem (h : OnWay r m o cur p) : cur ∉ p.trail := by
  intro hmem
  exact absurd (h.nearer cur hmem) (Nat.lt_irrefl _)

theorem OnWay.ahead_pos (h : OnWay r m o cur p) (htrail : p.trail ≠ []) : 0 < ahead cur o :=
  Nat.pos_of_ne_zero fun hc => h.short htrail (ahead_eq_zero.mp hc)

theorem OnWay.forwards (h : OnWay r m o cur p) : p.trail.length ≤ r.size - 2 := by
  by_cases htrail : p.trail = []
  · rw [htrail]
    exact Nat.zero_le _
  · have hpos := h.ahead_pos htrail
    have hsteps := h.steps
    omega

theorem OnWay.travels (h : OnWay r m o cur p) : Travels r m p :=
  ⟨cur, h.dgram, h.notMem, h.nodup, h.forwards⟩

/-- A fresh LOOKUP may start anywhere. -/
theorem onWay_fresh (m : Message) (o cur : Fin r.size) (serial : Nat) :
    OnWay r m o cur ⟨serial, [], ⟨r.addr cur, r.port cur, m.bytes⟩⟩ :=
  ⟨rfl, by simp, List.nodup_nil, by simpa using ahead_lt cur o, by simp⟩

theorem owns_iff_eq {h : UInt16} (ho : r.Owns o h) (j : Fin r.size) : r.Owns j h ↔ j = o := by
  constructor
  · intro hj
    exact Ring.owns_unique hj ho
  · intro hj
    rw [hj]
    exact ho

/-- What became of the LOOKUP once `cur` has handled it. -/
theorem OnWay.handled (h : OnWay r m o cur p) (ho : r.Owns o m.id) (hm : m.flags = 0)
    {node : Node} (hc : Configured r cur node) :
    ∃ d, handleDatagram node p.dgram.bytes = (node, [d]) ∧
      ((∃ cur', OnWay r m o cur' ⟨p.serial, cur :: p.trail, d⟩) ∨
        Answered r m ⟨p.serial, cur :: p.trail, d⟩) := by
  have hnodup : (cur :: p.trail).Nodup := List.nodup_cons.mpr ⟨h.notMem, h.nodup⟩
  have hsteps := h.steps
  have hlookup := handleDatagram_lookup hc hm []
  rw [List.append_nil] at hlookup
  have hbytes : p.dgram.bytes = m.bytes := by rw [h.dgram]
  rw [hbytes]
  rcases hlookup with ⟨hself, heq⟩ | ⟨hself, hnext, heq⟩ | ⟨hself, hnext, heq⟩
  · refine ⟨_, heq, Or.inr ⟨cur, owns_iff_eq hself, rfl, hnodup, by simp, ?_⟩⟩
    -- a LOOKUP that was forwarded stops before it gets to the owner
    have htrail : p.trail = [] := by
      by_contra hne
      exact h.short hne (Ring.owns_unique hself ho)
    simp [htrail]
  · refine ⟨_, heq, Or.inr ⟨next cur, owns_iff_eq hnext, rfl, hnodup, by simp, ?_⟩⟩
    have hne : cur ≠ o := fun hc' => hself (hc' ▸ ho)
    have hpos : 0 < ahead cur o := Nat.pos_of_ne_zero fun hc' => hne (ahead_eq_zero.mp hc')
    show p.trail.length + 1 - 1 ≤ r.size - 2
    omega
  · refine ⟨_, heq, Or.inl ⟨next cur, rfl, ?_, hnodup, ?_, ?_⟩⟩
    all_goals have hne : cur ≠ o := fun hc' => hself (hc' ▸ ho)
    all_goals have hahead := ahead_next hne
    · intro t ht
      rcases List.mem_cons.mp ht with rfl | ht
      · omega
      · have hnearer := h.nearer t ht
        omega
    · show p.trail.length + 1 + ahead (next cur) o < r.size
      omega
    · intro _ hc'
      exact hnext (hc' ▸ ho)

/-- A REPLY that comes in, at a node of the ring or elsewhere, sends nothing more. -/
theorem Answered.handled (h : Answered r m p) (node : Node) :
    (handleDatagram node p.dgram.bytes).2 = [] := by
  obtain ⟨o', -, hd, -⟩ := h
  have hreply := handleDatagram_reply node (m := r.replyNaming o') rfl []
  rw [List.append_nil] at hreply
  rw [hd, hreply]

end OneLookup

/-! ### All of them -/

namespace Net

variable {r : Ring}

/-- A node's address reaches that node. -/
theorem receiver_addr (cur : Fin r.size) (bytes : Bytes) :
    receiver r ⟨r.addr cur, r.port cur, bytes⟩ = some cur := by
  unfold receiver
  cases hfind : (List.finRange r.size).find? fun j =>
      decide (r.addr j = r.addr cur ∧ r.port j = r.port cur) with
  | none =>
      have hnone := List.find?_eq_none.mp hfind cur (List.mem_finRange cur)
      simp at hnone
  | some j =>
      have hj : r.addr j = r.addr cur ∧ r.port j = r.port cur := by
        simpa using List.find?_some hfind
      rw [r.addr_unique hj.1 hj.2]

/-- The LOOKUP a datagram in flight goes back to, on its way or answered. -/
def Tracks (s : Net r) (p : Flight r.size) : Prop :=
  ∃ m, s.lookups[p.serial]? = some m ∧ m.flags = 0 ∧
    ((∃ o cur, r.Owns o m.id ∧ OnWay r m o cur p) ∨ Answered r m p)

/-- What holds while nothing is lost or duplicated. -/
structure Tracked (s : Net r) : Prop where
  flight : ∀ p ∈ s.flight, s.Tracks p
  delivered : ∀ p ∈ s.delivered, ∃ m, s.lookups[p.serial]? = some m ∧ Answered r m p
  once : ((s.flight ++ s.delivered).map Flight.serial).Perm (List.range s.lookups.length)

theorem tracked_start (r : Ring) : (start r).Tracked :=
  ⟨by simp [start], by simp [start], List.Perm.refl _⟩

theorem getElem?_append_of_some {ms : List Message} {k : Nat} {m new : Message}
    (h : ms[k]? = some m) : (ms ++ [new])[k]? = some m := by
  rw [List.getElem?_append_left (List.getElem?_eq_some_iff.mp h).1]
  exact h

/-- What was in flight before a launch is tracked after it. -/
theorem Tracks.launched {s s' : Net r} {new : Message} (hs' : s'.lookups = s.lookups ++ [new])
    {p : Flight r.size} (h : s.Tracks p) : s'.Tracks p := by
  obtain ⟨m, hm, hrest⟩ := h
  refine ⟨m, ?_, hrest⟩
  rw [hs']
  exact getElem?_append_of_some hm

/-- Putting a LOOKUP on the network, at any node. -/
theorem launch_lookup (s : Net r) (cur : Fin r.size) (m : Message) :
    s.launch ⟨r.addr cur, r.port cur, m.bytes⟩ =
      { s with
          flight := s.flight ++ [⟨s.lookups.length, [], ⟨r.addr cur, r.port cur, m.bytes⟩⟩]
          lookups := s.lookups ++ [m] } := by
  have hread : Message.read m.bytes = some m := by
    rw [← List.append_nil m.bytes, Message.read_bytes]
  unfold launch
  rw [hread]

theorem launch_tracked {s : Net r} (hs : s.Tracked) (cur : Fin r.size) {m : Message}
    (hm : m.flags = 0) : (s.launch ⟨r.addr cur, r.port cur, m.bytes⟩).Tracked := by
  rw [launch_lookup]
  refine ⟨?_, ?_, ?_⟩
  · intro p hp
    rcases List.mem_append.mp hp with hp | hp
    · exact (hs.flight p hp).launched rfl
    · obtain ⟨o, ho, -⟩ := r.existsUnique_owns m.id
      rw [List.mem_singleton.mp hp]
      refine ⟨m, ?_, hm, Or.inl ⟨o, cur, ho, onWay_fresh m o cur _⟩⟩
      exact List.getElem?_concat_length
  · intro p hp
    obtain ⟨m', hm', hans⟩ := hs.delivered p hp
    exact ⟨m', getElem?_append_of_some hm', hans⟩
  · show ((s.flight ++ [_] ++ s.delivered).map Flight.serial).Perm _
    rw [List.length_append, List.length_singleton, List.range_succ, List.append_assoc,
      List.singleton_append]
    refine (List.perm_middle.map _).trans ?_
    rw [List.map_cons]
    exact (List.Perm.cons _ hs.once).trans (List.perm_append_singleton _ _).symm

/-- Nodes and redirects may change under a tracked state. -/
theorem Tracked.of_same {s s' : Net r} (hs : s.Tracked) (hflight : s'.flight = s.flight)
    (hlookups : s'.lookups = s.lookups) (hdelivered : s'.delivered = s.delivered) :
    s'.Tracked := by
  refine ⟨?_, ?_, ?_⟩
  · intro p hp
    rw [hflight] at hp
    unfold Tracks
    rw [hlookups]
    exact hs.flight p hp
  · intro p hp
    rw [hdelivered] at hp
    rw [hlookups]
    exact hs.delivered p hp
  · rw [hflight, hlookups, hdelivered]
    exact hs.once

/-- The datagram taken off the network is one of those that were on it. -/
theorem serials_perm {s : Net r} (hs : s.Tracked) {k : Nat} {p : Flight r.size}
    (hp : s.flight[k]? = some p) {flight delivered : List (Flight r.size)} {q : Flight r.size}
    (hq : q.serial = p.serial)
    (h : (flight ++ delivered).Perm (q :: (s.flight.eraseIdx k ++ s.delivered))) :
    ((flight ++ delivered).map Flight.serial).Perm (List.range s.lookups.length) := by
  obtain ⟨hk, rfl⟩ := List.getElem?_eq_some_iff.mp hp
  have hback : (s.flight[k] :: (s.flight.eraseIdx k ++ s.delivered)).Perm (s.flight ++ s.delivered) :=
    (List.getElem_cons_eraseIdx_perm hk).append_right s.delivered
  refine (h.map _).trans (List.Perm.trans ?_ hs.once)
  refine List.Perm.trans ?_ (hback.map Flight.serial)
  rw [List.map_cons, List.map_cons, hq]

/-- A datagram arrives: a LOOKUP becomes the next one or a REPLY, a REPLY is taken in. -/
theorem arrive_cases {s : Net r} (hs : s.Sound) {p : Flight r.size} (hp : s.Tracks p)
    (rest : List (Flight r.size)) :
    (∃ q, q.serial = p.serial ∧ q.trail.length = p.trail.length + 1 ∧ s.Tracks q ∧
      s.arrive p rest = { s with flight := rest ++ [q] }) ∨
    (∃ m nodes, s.lookups[p.serial]? = some m ∧ Answered r m p ∧
      s.arrive p rest = { s with nodes := nodes, flight := rest, delivered := s.delivered ++ [p] }) := by
  obtain ⟨m, hm, hflags, hway | hans⟩ := hp
  · obtain ⟨o, cur, ho, hway⟩ := hway
    obtain ⟨d, hd, hafter⟩ := hway.handled ho hflags (hs.configured cur)
    have hrec : receiver r p.dgram = some cur := by
      rw [hway.dgram]
      exact receiver_addr cur _
    refine Or.inl ⟨⟨p.serial, cur :: p.trail, d⟩, rfl, rfl, ⟨m, hm, hflags, ?_⟩, ?_⟩
    · rcases hafter with ⟨cur', hway'⟩ | hans
      · exact Or.inl ⟨o, cur', ho, hway'⟩
      · exact Or.inr hans
    · unfold arrive
      rw [hrec]
      simp only [hd, Function.update_eq_self, List.map_cons, List.map_nil, List.cons_ne_nil, if_false]
  · cases hrec : receiver r p.dgram with
    | none =>
        refine Or.inr ⟨m, s.nodes, hm, hans, ?_⟩
        unfold arrive
        rw [hrec]
    | some j =>
        have hnone := hans.handled (s.nodes j)
        refine Or.inr ⟨m, Function.update s.nodes j (handleDatagram (s.nodes j) p.dgram.bytes).1,
          hm, hans, ?_⟩
        unfold arrive
        rw [hrec]
        simp only [hnone, List.map_nil, List.append_nil, if_true]

/-- **Delivery** keeps every LOOKUP tracked, and each of them once. -/
theorem deliver_tracked {s : Net r} (hsound : s.Sound) (hs : s.Tracked) {k : Nat}
    {p : Flight r.size} (hp : s.flight[k]? = some p) :
    (s.arrive p (s.flight.eraseIdx k)).Tracked := by
  have hmem := List.mem_of_getElem? hp
  rcases arrive_cases hsound (hs.flight p hmem) (s.flight.eraseIdx k) with
    ⟨q, hserial, -, hq, heq⟩ | ⟨m, nodes, hm, hans, heq⟩
  · rw [heq]
    refine ⟨?_, hs.delivered, ?_⟩
    · intro q' hq'
      rcases List.mem_append.mp hq' with hq' | hq'
      · exact hs.flight q' (List.mem_of_mem_eraseIdx hq')
      · rw [List.mem_singleton.mp hq']
        exact hq
    · refine serials_perm hs hp hserial ?_
      rw [List.append_assoc, List.singleton_append]
      exact List.perm_middle
  · rw [heq]
    refine ⟨fun q' hq' => hs.flight q' (List.mem_of_mem_eraseIdx hq'), ?_, ?_⟩
    · intro q' hq'
      rcases List.mem_append.mp hq' with hq' | hq'
      · exact hs.delivered q' hq'
      · rw [List.mem_singleton.mp hq']
        exact ⟨m, hm, hans⟩
    · refine serials_perm hs hp rfl ?_
      rw [← List.append_assoc]
      exact List.perm_append_singleton _ _

/-! ### Steps -/

/-- Delegating a URI sends one LOOKUP to the successor or nothing. -/
theorem delegate_lookups {i : Fin r.size} {node : Node} (hc : Configured r i node) (uri : Bytes)
    (h : UInt16) :
    (node.delegate uri h).lookups = [] ∨ ∃ m : Message, m.flags = 0 ∧
      (node.delegate uri h).lookups = [⟨r.addr (next i), r.port (next i), m.bytes⟩] := by
  unfold Node.delegate
  split
  · exact Or.inl rfl
  · split
    · exact Or.inl rfl
    · split
      · exact Or.inl rfl
      · rw [hc.successor, Ring.peer, sendTo_inetNtop]
        exact Or.inr ⟨_, rfl, rfl⟩

/-- A request puts at most one LOOKUP on the network. -/
theorem request_lookups {s : Net r} (hs : s.Sound) {i : Fin r.size} {mem : Bytes} {n : Nat}
    {packet : Packet} (h : processPacket (s.nodes i) mem n = .returns packet) :
    packet.answer.lookups = [] ∨ ∃ m : Message, m.flags = 0 ∧
      packet.answer.lookups = [⟨r.addr (next i), r.port (next i), m.bytes⟩] := by
  rcases processPacket_cases h with ⟨parsed, -, -, hanswer⟩ | ⟨-, -, hnone, -⟩
  · rcases answer_cases hanswer with ⟨-, resources, -, hnone, -⟩ | ⟨-, hdel⟩
    · exact Or.inl hnone
    · rw [hdel]
      exact delegate_lookups (hs.configured i) _ _
  · exact Or.inl hnone

/-- **What a reliable event does to the datagrams**: nothing, or it launches one
LOOKUP, or it delivers one datagram. -/
theorem step_cases {s s' : Net r} {e : Event r} (hs : s.Sound) (he : e.reliable = true)
    (h : s.step e = some s') :
    (∃ base : Net r, base.flight = s.flight ∧ base.lookups = s.lookups ∧
      base.delivered = s.delivered ∧ e.isDeliver = false ∧
      (s' = base ∨ ∃ cur, ∃ m : Message, m.flags = 0 ∧
        s' = base.launch ⟨r.addr cur, r.port cur, m.bytes⟩)) ∨
    (∃ k p, e.isDeliver = true ∧ s.flight[k]? = some p ∧
      s' = s.arrive p (s.flight.eraseIdx k)) := by
  cases e with
  | request i mem n =>
      simp only [step] at h
      cases hp : processPacket (s.nodes i) mem n with
      | returns packet =>
          rw [hp] at h
          rw [← Option.some.inj h]
          refine Or.inl ⟨{ s with
            nodes := Function.update s.nodes i packet.answer.node
            redirects := s.redirects ++ redirectsOf packet.answer.replies }, rfl, rfl, rfl, rfl, ?_⟩
          rcases request_lookups hs hp with hnone | ⟨m, hm, hone⟩
          · left
            unfold respond
            rw [hnone]
            rfl
          · right
            refine ⟨next i, m, hm, ?_⟩
            unfold respond
            rw [hone]
            rfl
      | _ => rw [hp] at h; simp at h
  | inject i m =>
      simp only [step] at h
      split at h
      · rename_i hflag
        rw [← Option.some.inj h]
        exact Or.inl ⟨s, rfl, rfl, rfl, rfl, Or.inr ⟨i, m, hflag, rfl⟩⟩
      · simp at h
  | deliver k =>
      obtain ⟨p, hp, rfl⟩ := Option.map_eq_some_iff.mp h
      exact Or.inr ⟨k, p, rfl, hp, rfl⟩
  | lose k => simp [Event.reliable] at he
  | duplicate k => simp [Event.reliable] at he

/-- **One reliable step** keeps every LOOKUP tracked. -/
theorem step_tracked {s s' : Net r} {e : Event r} (hsound : s.Sound) (hs : s.Tracked)
    (he : e.reliable = true) (h : s.step e = some s') : s'.Tracked := by
  rcases step_cases hsound he h with ⟨base, hflight, hlookups, hdelivered, -, hbase⟩ | ⟨k, p, -, hp, rfl⟩
  · have htracked : base.Tracked := hs.of_same hflight hlookups hdelivered
    rcases hbase with rfl | ⟨cur, m, hm, rfl⟩
    · exact htracked
    · exact launch_tracked htracked cur hm
  · exact deliver_tracked hsound hs hp

/-! ### How many deliveries -/

/-- The deliveries that led to this state: one for each node on a trail, and one for
each REPLY taken in. -/
def work (s : Net r) : Nat :=
  (s.flight.map fun p => p.trail.length).sum + (s.delivered.map fun p => p.trail.length + 1).sum

theorem launch_work (s : Net r) (cur : Fin r.size) (m : Message) :
    (s.launch ⟨r.addr cur, r.port cur, m.bytes⟩).work = s.work := by
  rw [launch_lookup]
  simp [work]

theorem arrive_work {s : Net r} (hsound : s.Sound) (hs : s.Tracked) {k : Nat} {p : Flight r.size}
    (hp : s.flight[k]? = some p) : (s.arrive p (s.flight.eraseIdx k)).work = s.work + 1 := by
  have hmem := List.mem_of_getElem? hp
  have hsplit : (s.flight.map fun p => p.trail.length).sum
      = p.trail.length + ((s.flight.eraseIdx k).map fun p => p.trail.length).sum := by
    obtain ⟨hk, rfl⟩ := List.getElem?_eq_some_iff.mp hp
    have hperm := (List.getElem_cons_eraseIdx_perm hk).map fun p : Flight r.size => p.trail.length
    rw [← hperm.sum_nat, List.map_cons, List.sum_cons]
  rcases arrive_cases hsound (hs.flight p hmem) (s.flight.eraseIdx k) with
    ⟨q, -, htrail, -, heq⟩ | ⟨m, nodes, -, -, heq⟩
  · rw [heq]
    simp only [work, List.map_append, List.sum_append, List.map_cons, List.map_nil, List.sum_cons,
      List.sum_nil, htrail]
    omega
  · rw [heq]
    simp only [work, List.map_append, List.sum_append, List.map_cons, List.map_nil, List.sum_cons,
      List.sum_nil]
    omega

theorem step_work {s s' : Net r} {e : Event r} (hsound : s.Sound) (hs : s.Tracked)
    (he : e.reliable = true) (h : s.step e = some s') :
    s'.work = s.work + if e.isDeliver then 1 else 0 := by
  rcases step_cases hsound he h with
    ⟨base, hflight, -, hdelivered, hno, hbase⟩ | ⟨k, p, hyes, hp, rfl⟩
  · have hsame : base.work = s.work := by
      unfold work
      rw [hflight, hdelivered]
    rw [hno]
    rcases hbase with rfl | ⟨cur, m, -, rfl⟩
    · exact hsame
    · rw [launch_work]
      exact hsame
  · rw [hyes]
    exact arrive_work hsound hs hp

/-- No LOOKUP takes more than `max 2 size` deliveries, its REPLY included. -/
theorem work_le {s : Net r} (hs : s.Tracked) : s.work ≤ max 2 r.size * s.lookups.length := by
  have htrail : ∀ p m, Answered r m p → p.trail.length + 1 ≤ max 2 r.size := by
    intro p m hans
    obtain ⟨o, -, -, -, hne, hlen⟩ := hans
    have hpos := List.length_pos_iff.mpr hne
    omega
  have hflight : ∀ x ∈ s.flight.map (fun p => p.trail.length), x ≤ max 2 r.size := by
    intro x hx
    obtain ⟨p, hp, rfl⟩ := List.mem_map.mp hx
    obtain ⟨m, -, -, ⟨o, cur, -, hway⟩ | hans⟩ := hs.flight p hp
    · have hforwards := hway.forwards
      omega
    · have hlen := htrail p m hans
      omega
  have hdelivered : ∀ x ∈ s.delivered.map (fun p => p.trail.length + 1), x ≤ max 2 r.size := by
    intro x hx
    obtain ⟨p, hp, rfl⟩ := List.mem_map.mp hx
    obtain ⟨m, -, hans⟩ := hs.delivered p hp
    exact htrail p m hans
  have hlen := hs.once.length_eq
  rw [List.length_map, List.length_append, List.length_range] at hlen
  have hf := List.sum_le_card_nsmul _ _ hflight
  have hd := List.sum_le_card_nsmul _ _ hdelivered
  rw [List.length_map, Nat.nsmul_eq_mul, Nat.mul_comm] at hf hd
  calc s.work ≤ max 2 r.size * s.flight.length + max 2 r.size * s.delivered.length :=
        Nat.add_le_add hf hd
    _ = max 2 r.size * s.lookups.length := by rw [← Nat.mul_add, hlen]

/-! ### Conservation -/

/-- The LOOKUP of serial number `k` asks for this hash on behalf of this address. -/
def asks (ms : List Message) (ip : InAddr) (port : UInt16) (h : UInt16) (k : Nat) : Bool :=
  (ms[k]?).any fun m => m.ip == ip && m.port == port && m.id == h

theorem countP_range_getElem? {α : Type} (f : α → Bool) (xs : List α) :
    (List.range xs.length).countP (fun k => (xs[k]?).any f) = xs.countP f := by
  induction xs with
  | nil => rfl
  | cons x xs ih =>
      rw [List.length_cons, List.range_succ_eq_map, List.countP_cons, List.countP_map,
        List.countP_cons, ← ih]
      rfl

/-- **Conservation.** The lookups made for an originator and a hash are the LOOKUPs in
flight, the REPLYs in flight and the REPLYs delivered for it. -/
theorem Tracked.conserved {s : Net r} (hs : s.Tracked) (ip : InAddr) (port h : UInt16) :
    s.lookups.countP (fun m => m.ip == ip && m.port == port && m.id == h)
      = (s.flight.countP fun p => asks s.lookups ip port h p.serial && p.dgram.bytes.head? == some 0)
        + (s.flight.countP fun p => asks s.lookups ip port h p.serial && p.dgram.bytes.head? == some 1)
        + s.delivered.countP fun p => asks s.lookups ip port h p.serial := by
  have hall : s.lookups.countP (fun m => m.ip == ip && m.port == port && m.id == h)
      = (s.flight ++ s.delivered).countP fun p => asks s.lookups ip port h p.serial := by
    rw [← countP_range_getElem?, ← hs.once.countP_eq, List.countP_map]
    rfl
  have hkinds : (s.flight.countP fun p => asks s.lookups ip port h p.serial)
      = (s.flight.countP fun p => asks s.lookups ip port h p.serial && p.dgram.bytes.head? == some 0)
        + s.flight.countP fun p =>
            asks s.lookups ip port h p.serial && p.dgram.bytes.head? == some 1 := by
    have hkind : ∀ p ∈ s.flight, p.dgram.bytes.head? = some 0 ∨ p.dgram.bytes.head? = some 1 := by
      intro p hp
      obtain ⟨m, -, hflags, ⟨o, cur, -, hway⟩ | ⟨o, -, hd, -⟩⟩ := hs.flight p hp
      · left
        rw [hway.dgram]
        show some m.flags = some 0
        rw [hflags]
      · right
        rw [hd]
        rfl
    revert hkind
    induction s.flight with
    | nil => intro _; rfl
    | cons p ps ih =>
        intro hkind
        have hps := ih fun q hq => hkind q (List.mem_cons_of_mem _ hq)
        rw [List.countP_cons, List.countP_cons, List.countP_cons, hps]
        rcases hkind p (List.mem_cons_self ..) with hp | hp
        · rw [hp]
          cases asks s.lookups ip port h p.serial <;> (simp; try omega)
        · rw [hp]
          cases asks s.lookups ip port h p.serial <;> (simp; try omega)
  rw [hall, List.countP_append, hkinds]

/-! ### Runs -/

theorem run_tracked : ∀ (events : List (Event r)) {s t : Net r}, s.Sound → s.Tracked →
    (∀ e ∈ events, e.reliable = true) → run step s events = some t →
      t.Sound ∧ t.Tracked ∧ t.work = s.work + events.countP Event.isDeliver := by
  intro events
  induction events with
  | nil =>
      intro s t hsound hs _ hrun
      rw [← Option.some.inj hrun]
      exact ⟨hsound, hs, rfl⟩
  | cons e events ih =>
      intro s t hsound hs hall hrun
      obtain ⟨s', hstep, hrun'⟩ := run_cons_eq_some.mp hrun
      have he := hall e (List.mem_cons_self ..)
      obtain ⟨htsound, ht, hwork⟩ := ih (step_sound hsound hstep) (step_tracked hsound hs he hstep)
        (fun e' he' => hall e' (List.mem_cons_of_mem _ he')) hrun'
      refine ⟨htsound, ht, ?_⟩
      rw [hwork, step_work hsound hs he hstep, List.countP_cons]
      omega

theorem arrive_lookups (s : Net r) (p : Flight r.size) (rest : List (Flight r.size)) :
    (s.arrive p rest).lookups = s.lookups := by
  unfold arrive
  split <;> rfl

/-- Deliveries alone empty the network: `budget` is what is left of the work bound. -/
theorem drain : ∀ (budget : Nat) {s : Net r}, s.Sound → s.Tracked →
    max 2 r.size * s.lookups.length ≤ s.work + budget →
      ∃ deliveries t, (∀ e ∈ deliveries, e.isDeliver = true) ∧
        run step s deliveries = some t ∧ t.flight = [] ∧ t.lookups = s.lookups := by
  intro budget
  induction budget with
  | zero =>
      intro s hsound hs hbudget
      refine ⟨[], s, by simp, rfl, ?_, rfl⟩
      by_contra hne
      obtain ⟨p, ps, hflight⟩ := List.exists_cons_of_ne_nil hne
      have hp : s.flight[0]? = some p := by rw [hflight]; rfl
      have hle := work_le (deliver_tracked hsound hs hp)
      rw [arrive_work hsound hs hp, arrive_lookups] at hle
      omega
  | succ budget ih =>
      intro s hsound hs hbudget
      by_cases hempty : s.flight = []
      · exact ⟨[], s, by simp, rfl, hempty, rfl⟩
      · obtain ⟨p, ps, hflight⟩ := List.exists_cons_of_ne_nil hempty
        have hp : s.flight[0]? = some p := by rw [hflight]; rfl
        have hstep : s.step (.deliver 0) = some (s.arrive p (s.flight.eraseIdx 0)) := by
          simp only [step, hp, Option.map_some]
        have hbudget' : max 2 r.size * (s.arrive p (s.flight.eraseIdx 0)).lookups.length
            ≤ (s.arrive p (s.flight.eraseIdx 0)).work + budget := by
          rw [arrive_lookups, arrive_work hsound hs hp]
          omega
        obtain ⟨deliveries, t, hall, hrun, hflight', hlookups⟩ :=
          ih (step_sound hsound hstep) (deliver_tracked hsound hs hp) hbudget'
        refine ⟨.deliver 0 :: deliveries, t, ?_, ?_, hflight', ?_⟩
        · intro e he
          rcases List.mem_cons.mp he with rfl | he
          · rfl
          · exact hall e he
        · exact run_cons_eq_some.mpr ⟨_, hstep, hrun⟩
        · rw [hlookups, arrive_lookups]

/-- What lookups have come to in a state that `deliveries` deliveries led to. -/
structure Resolves (s : Net r) (deliveries : Nat) : Prop where
  /-- Everything in flight is a LOOKUP on its way or the REPLY it turned into. -/
  inFlight : ∀ p ∈ s.flight, ∃ m, s.lookups[p.serial]? = some m ∧ (Travels r m p ∨ Answered r m p)
  /-- What was taken in is a REPLY. -/
  replies : ∀ p ∈ s.delivered, ∃ m, s.lookups[p.serial]? = some m ∧ Answered r m p
  /-- Each LOOKUP is exactly one of these. -/
  once : ((s.flight ++ s.delivered).map Flight.serial).Perm (List.range s.lookups.length)
  /-- LOOKUPs made are LOOKUPs in flight, REPLYs in flight and REPLYs delivered. -/
  conserved : ∀ (ip : InAddr) (port h : UInt16),
    s.lookups.countP (fun m => m.ip == ip && m.port == port && m.id == h)
      = (s.flight.countP fun p => asks s.lookups ip port h p.serial && p.dgram.bytes.head? == some 0)
        + (s.flight.countP fun p => asks s.lookups ip port h p.serial && p.dgram.bytes.head? == some 1)
        + s.delivered.countP fun p => asks s.lookups ip port h p.serial
  /-- Deliveries run out ... -/
  bounded : deliveries ≤ max 2 r.size * s.lookups.length
  /-- ... and when they have, every LOOKUP has been answered. -/
  drains : ∃ more t, (∀ e ∈ more, e.isDeliver = true) ∧ run step s more = some t ∧
    t.flight = [] ∧ t.lookups = s.lookups

end Net

/-- **Lookups resolve to the owner, each exactly once**, whatever the order of requests,
injected LOOKUPs and deliveries. -/
theorem lookups_resolve (r : Ring) (events : List (Event r)) {s : Net r}
    (hreliable : ∀ e ∈ events, e.reliable = true)
    (hrun : run Net.step (Net.start r) events = some s) :
    s.Resolves (events.countP Event.isDeliver) := by
  obtain ⟨hsound, hs, hwork⟩ := Net.run_tracked events (Net.sound_start r) (Net.tracked_start r)
    hreliable hrun
  have hstart : (Net.start r).work = 0 := rfl
  rw [hstart, Nat.zero_add] at hwork
  refine ⟨?_, hs.delivered, hs.once, hs.conserved, ?_, ?_⟩
  · intro p hp
    obtain ⟨m, hm, -, ⟨o, cur, -, hway⟩ | hans⟩ := hs.flight p hp
    · exact ⟨m, hm, Or.inl hway.travels⟩
    · exact ⟨m, hm, Or.inr hans⟩
  · rw [← hwork]
    exact Net.work_le hs
  · exact Net.drain _ hsound hs (Nat.le_add_left _ _)

/-- A LOOKUP put in at the first node for a hash of the third: it is forwarded once,
answered by the second node and taken in by whoever asked. -/
def oneLookup : List (Event threeNodes) :=
  [.inject ⟨0, threeNodes.pos⟩ ⟨0, 0xd09e, 0x1000, ⟨127, 0, 0, 1⟩, 9000⟩,
    .deliver 0, .deliver 0, .deliver 0]

theorem lookups_resolve_one :
    ∃ s, run Net.step (Net.start threeNodes) oneLookup = some s ∧ s.Resolves 3 := by
  have hsome : (run Net.step (Net.start threeNodes) oneLookup).isSome = true := by decide +kernel
  obtain ⟨s, hs⟩ := Option.isSome_iff_exists.mp hsome
  exact ⟨s, hs, lookups_resolve threeNodes oneLookup (by decide) hs⟩

end ChordDht.Chord
