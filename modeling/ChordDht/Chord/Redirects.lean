/-
Where a redirect sends the client.

A node that cannot serve a URI answers 303 with the address of another node.  With
two nodes that is the neighbour, which is right.  With more nodes it is whatever
peer the node's one reply slot holds, for whichever URI that reply was asked: the
slot keeps the interval the peer answers for, but nothing compares it with the URI
at hand.  `redirects_name_owner_iff` says that this comparison is exactly what is
missing: over any run, redirects name owners if and only if each request answered
from the slot hashes into the interval the slot holds.
-/
import ChordDht.Chord.Network

namespace ChordDht.Chord

open Arc Trace

/-- The address in the redirect is that of the URI's owner. -/
def NamesOwner (r : Ring) (d : Redirect) : Prop :=
  ∃ o, r.Owns o (pseudoHash d.uri) ∧ d.ip = inetNtop (r.addr o) ∧ d.port = r.port o

/-- If a request with this hash is answered from the reply slot, the hash is in the
interval the slot holds. -/
def CacheFits (node : Node) (uriHash : UInt16) : Prop :=
  node.responsible uriHash = false → node.successor.id ≠ node.predecessor.id →
    node.haveReply = true → isResponsible uriHash node.replyPeer.id node.replyPrevId = true

/-- The event is not a request that finds a reply to some other URI in the slot. -/
def Event.fits {r : Ring} (s : Net r) : Event r → Prop
  | .request i mem n => ∀ parsed, parseRequest mem n emptyRequest = .returns parsed →
      0 < parsed.ret → CacheFits (s.nodes i) (pseudoHash (parsed.request.uri.getD []))
  | _ => True

/-! ### The redirect of one request -/

theorem owns_of_responsible {r : Ring} {i : Fin r.size} {node : Node} (hc : Configured r i node)
    {h : UInt16} (hr : node.responsible h = false) : ¬ r.Owns i h := by
  intro howns
  rw [Node.responsible, Bool.or_eq_false_iff] at hr
  rw [(hc.self_test h).mpr howns] at hr
  exact Bool.noConfusion hr.2

/-- A node between two neighbours that are the same has no other node but them. -/
theorem eq_or_eq_next {n : Nat} {i : Fin n} (h : next i = prev i) (o : Fin n) :
    o = i ∨ o = next i := by
  have hi := i.isLt
  have ho := o.isLt
  rw [Fin.ext_iff, Fin.ext_iff]
  rw [Fin.ext_iff] at h
  simp only [next, prev] at h ⊢
  split at h <;> split at h <;> split <;> omega

/-- An address belongs to one node only. -/
theorem namesOwner_iff {r : Ring} {o : Fin r.size} {d : Redirect} (hip : d.ip = inetNtop (r.addr o))
    (hport : d.port = r.port o) : NamesOwner r d ↔ r.Owns o (pseudoHash d.uri) := by
  constructor
  · rintro ⟨o', howns, hip', hport'⟩
    have heq : o = o' := r.addr_unique (inetNtop_injective (hip ▸ hip')) (hport ▸ hport')
    rwa [heq]
  · intro howns
    exact ⟨o, howns, hip, hport⟩

theorem mem_redirectsOf_seeOther {d : Redirect} {ip uri : Bytes} {port : UInt16} :
    d ∈ redirectsOf [.seeOther ip port uri] ↔ d = ⟨uri, ip, port⟩ :=
  List.mem_singleton

/-- **Delegating names the owner exactly when the reply slot fits.** -/
theorem delegate_names_owner_iff {r : Ring} {i : Fin r.size} {node : Node}
    (hc : Configured r i node) (hcache : CacheSound r node) (uri : Bytes)
    (hr : node.responsible (pseudoHash uri) = false) :
    (∀ d ∈ redirectsOf (node.delegate uri (pseudoHash uri)).replies, NamesOwner r d) ↔
      CacheFits node (pseudoHash uri) := by
  unfold Node.delegate CacheFits
  by_cases htwo : node.successor.id = node.predecessor.id
  · rw [if_pos htwo]
    have hsame : next i = prev i := r.id_injective (by
      rw [hc.successor, hc.predecessor] at htwo
      exact htwo)
    have hnext : r.Owns (next i) (pseudoHash uri) := by
      obtain ⟨o, ho, -⟩ := r.existsUnique_owns (pseudoHash uri)
      rcases eq_or_eq_next hsame o with rfl | rfl
      · exact absurd ho (owns_of_responsible hc hr)
      · exact ho
    constructor
    · intro _ _ hne
      exact absurd htwo hne
    · intro _ d hd
      rw [mem_redirectsOf_seeOther.mp hd]
      have hsucc : node.successor = r.peer (next i) := hc.successor
      rw [hsucc]
      exact (namesOwner_iff rfl rfl).mpr hnext
  · rw [if_neg htwo]
    by_cases hhave : node.haveReply = true
    · obtain ⟨o, hpeer, hprev⟩ := hcache hhave
      have hslot : isResponsible (pseudoHash uri) node.replyPeer.id node.replyPrevId = true ↔
          r.Owns o (pseudoHash uri) := by
        rw [isResponsible_iff, hpeer, hprev]
        exact Iff.rfl
      rw [if_pos hhave, hslot, hpeer]
      constructor
      · intro h _ _ _
        let d : Redirect := ⟨uri, inetNtop (r.addr o), r.port o⟩
        have hnames : NamesOwner r d := h d (mem_redirectsOf_seeOther.mpr rfl)
        exact (namesOwner_iff (d := d) rfl rfl).mp hnames
      · intro h d hd
        rw [mem_redirectsOf_seeOther.mp hd]
        exact (namesOwner_iff rfl rfl).mpr (h hr htwo hhave)
    · rw [if_neg hhave]
      constructor
      · intro _ _ _ hc'
        exact absurd hc' hhave
      · intro _ d hd
        split at hd
        · exact absurd hd (by simp [redirectsOf])
        · exact absurd hd (by simp [redirectsOf])

/-! ### The redirects of a run -/

namespace Net

variable {r : Ring}

@[simp] theorem launch_redirects (s : Net r) (d : Datagram) : (s.launch d).redirects = s.redirects := by
  unfold launch
  split <;> rfl

theorem foldl_launch_redirects : ∀ (ds : List Datagram) (s : Net r),
    (ds.foldl launch s).redirects = s.redirects := by
  intro ds
  induction ds with
  | nil => intro s; rfl
  | cons d ds ih => intro s; rw [List.foldl_cons, ih, launch_redirects]

@[simp] theorem respond_redirects (s : Net r) (i : Fin r.size) (answer : Answer) :
    (s.respond i answer).redirects = s.redirects ++ redirectsOf answer.replies :=
  foldl_launch_redirects answer.lookups _

@[simp] theorem arrive_redirects (s : Net r) (p : Flight r.size) (rest : List (Flight r.size)) :
    (s.arrive p rest).redirects = s.redirects := by
  unfold arrive
  split <;> rfl

/-- The redirects of a request that returns, one by one. -/
theorem request_redirects {s : Net r} (hs : s.Sound) {i : Fin r.size} {mem : Bytes} {n : Nat}
    {packet : Packet} (h : processPacket (s.nodes i) mem n = .returns packet) :
    (∀ d ∈ redirectsOf packet.answer.replies, NamesOwner r d) ↔
      Event.fits s (.request i mem n) := by
  simp only [Event.fits]
  rcases processPacket_cases h with ⟨parsed, hparse, hpos, hanswer⟩ | ⟨hnot, -, -, hnone⟩
  · have hfits : (∀ parsed', parseRequest mem n emptyRequest = .returns parsed' → 0 < parsed'.ret →
          CacheFits (s.nodes i) (pseudoHash (parsed'.request.uri.getD []))) ↔
        CacheFits (s.nodes i) (pseudoHash (parsed.request.uri.getD [])) :=
      (Outcome.forall_returns hparse).trans (imp_iff_right hpos)
    rw [hfits]
    rcases answer_cases hanswer with ⟨hr, -, -, -, hnone⟩ | ⟨hr, hdel⟩
    · rw [hnone]
      constructor
      · intro _ hr'
        rw [hr] at hr'
        exact Bool.noConfusion hr'
      · intro _ d hd
        simp at hd
    · rw [hdel]
      exact delegate_names_owner_iff (hs.configured i) (hs.cache i) _ hr
  · rw [redirectsOf_badRequest hnone]
    constructor
    · intro _ parsed hparse hpos
      exact absurd hpos (hnot parsed hparse)
    · intro _ d hd
      simp at hd

/-- **One step adds redirects that name owners exactly when it fits.** -/
theorem step_redirects {s s' : Net r} {e : Event r} (hs : s.Sound) (h : s.step e = some s') :
    ∃ new, s'.redirects = s.redirects ++ new ∧ ((∀ d ∈ new, NamesOwner r d) ↔ e.fits s) := by
  cases e with
  | request i mem n =>
      simp only [step] at h
      cases hp : processPacket (s.nodes i) mem n with
      | returns packet =>
          rw [hp] at h
          rw [← Option.some.inj h]
          exact ⟨_, respond_redirects s i packet.answer, request_redirects hs hp⟩
      | _ => rw [hp] at h; simp at h
  | inject i m =>
      simp only [step] at h
      split at h
      · rw [← Option.some.inj h]
        exact ⟨[], by simp, by simp [Event.fits]⟩
      · simp at h
  | deliver k =>
      obtain ⟨p, -, rfl⟩ := Option.map_eq_some_iff.mp h
      exact ⟨[], by simp, by simp [Event.fits]⟩
  | lose k =>
      obtain ⟨p, -, rfl⟩ := Option.map_eq_some_iff.mp h
      exact ⟨[], by simp, by simp [Event.fits]⟩
  | duplicate k =>
      obtain ⟨p, -, rfl⟩ := Option.map_eq_some_iff.mp h
      exact ⟨[], by simp, by simp [Event.fits]⟩

theorem step_redirects_iff {s s' : Net r} {e : Event r} (hs : s.Sound) (h : s.step e = some s') :
    (∀ d ∈ s'.redirects, NamesOwner r d) ↔ (∀ d ∈ s.redirects, NamesOwner r d) ∧ e.fits s := by
  obtain ⟨new, hnew, hfits⟩ := step_redirects hs h
  rw [hnew, ← hfits]
  exact List.forall_mem_append

theorem run_redirects (events : List (Event r)) {s t : Net r} (hs : s.Sound)
    (hrun : run step s events = some t) : (∀ d ∈ t.redirects, NamesOwner r d) ↔
      (∀ d ∈ s.redirects, NamesOwner r d) ∧ Along step (fun s e => e.fits s) s events :=
  run_iff_along (fun _ _ _ hs h => step_sound hs h) (fun _ _ _ hs h => step_redirects_iff hs h) events hs hrun

end Net

/-- **Redirects name the owner in exactly the runs whose requests fit the reply slot.**
The events are requests at any node and datagrams delivered, lost or repeated in any order. -/
theorem redirects_name_owner_iff (r : Ring) (events : List (Event r)) {s : Net r}
    (hrun : run Net.step (Net.start r) events = some s) :
    (∀ d ∈ s.redirects, NamesOwner r d) ↔
      Along Net.step (fun s e => e.fits s) (Net.start r) events := by
  rw [Net.run_redirects events (Net.sound_start r) hrun]
  simp [Net.start]

/-! ### A reply that is used for another URI -/

def getRequest (uri : String) : Bytes := ascii ("GET " ++ uri ++ " HTTP/1.1\r\n\r\n")

/-- A client asks the first node for `/aa`, which the second node owns, and then for `/a`. -/
def crossedRequests : List (Event threeNodes) :=
  let first : Fin threeNodes.size := ⟨0, threeNodes.pos⟩
  [.request first (getRequest "/aa") 20, .request first (getRequest "/a") 19]

/-- `/a` is the third node's, and the client is sent to the second. -/
theorem redirect_to_the_wrong_node :
    ∃ s, run Net.step (Net.start threeNodes) crossedRequests = some s ∧
      ¬ ∀ d ∈ s.redirects, NamesOwner threeNodes d := by
  have hredirects : ((run Net.step (Net.start threeNodes) crossedRequests).map Net.redirects)
      = some [⟨ascii "/a", ascii "10.0.0.2", 8080⟩] := by decide +kernel
  obtain ⟨s, hrun, hs⟩ := Option.map_eq_some_iff.mp hredirects
  refine ⟨s, hrun, ?_⟩
  intro hall
  have hnames := hall ⟨ascii "/a", ascii "10.0.0.2", 8080⟩ (by rw [hs]; simp)
  have howns := (namesOwner_iff (r := threeNodes) (o := ⟨1, by decide⟩) (by decide +kernel)
    rfl).mp hnames
  exact absurd howns (by unfold Ring.Owns; decide +kernel)

/-- The same run, judged by the condition: its second request does not fit. -/
theorem redirects_name_owner_iff_crossed :
    ∃ s, run Net.step (Net.start threeNodes) crossedRequests = some s ∧
      ((∀ d ∈ s.redirects, NamesOwner threeNodes d) ↔
        Along Net.step (fun s e => e.fits s) (Net.start threeNodes) crossedRequests) := by
  have hsome : (run Net.step (Net.start threeNodes) crossedRequests).isSome = true := by
    decide +kernel
  obtain ⟨s, hs⟩ := Option.isSome_iff_exists.mp hsome
  exact ⟨s, hs, redirects_name_owner_iff threeNodes crossedRequests hs⟩

end ChordDht.Chord
