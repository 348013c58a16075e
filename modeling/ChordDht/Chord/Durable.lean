/-
What a client can rely on after an acknowledged PUT.

A node that owns every URI is asked one request after another.  A request it goes down
on has no reply, and neither has any later one.  `Durable` is the promise: after a PUT
that was answered 201 or 204, and until the next PUT or DELETE of that URI, every GET
of it is answered 200 with a body of the PUT's length.

The store breaks it in several ways.  `set` returns the same value when it stored a new
tuple and when it had no room for one, so a full table acknowledges and forgets.  The
three tuples the table starts with are string literals, which must not be freed; an
upload that overwrites is copied with `strcpy`, which runs on behind it up to a zero
byte; and a GET of a value that is longer than its reply's buffer writes behind that.
`durable` is about every run that meets none of these.
-/
import ChordDht.Chord.Replies

namespace ChordDht.Chord

open Trace

/-! ### A run of requests -/

/-- The replies to a list of requests. -/
def Node.exchanges : Node → List Request → List (Request × Option Reply)
  | _, [] => []
  | node, request :: requests =>
      match node.answer request with
      | .returns answer => (request, answer.replies.head?) :: answer.node.exchanges requests
      | _ => (request :: requests).map fun request => (request, none)

/-- The promise of a stored value in the exchanges that follow: GETs find it until the
next PUT or DELETE. -/
def Kept (uri : Bytes) (length : Nat) (log : List (Request × Option Reply)) : Prop :=
  ∀ before get reply after, log = before ++ (get, reply) :: after →
    (∀ e ∈ before, e.1.target = uri → ¬ e.1.isPut ∧ ¬ e.1.isDelete) →
    get.isGet → get.target = uri →
      ∃ body, reply = some (.ok length body) ∧ body.length = length

/-- Every acknowledged PUT is kept. -/
def Durable (log : List (Request × Option Reply)) : Prop :=
  ∀ before put reply after, log = before ++ (put, reply) :: after → put.isPut →
    reply = some .created ∨ reply = some .noContent →
      Kept put.target put.payloadLength.toNat after

/-- Serving the request does no damage to memory, and a PUT has a tuple to write to. -/
def Node.fits (node : Node) (request : Request) : Prop :=
  request.Harmless node.resources ∧ (request.isPut → HasRoom request.target node.resources.tuples)

instance (node : Node) (request : Request) : Decidable (node.fits request) := by
  unfold Node.fits; infer_instance

/-! ### One request -/

theorem Stored.of_get {key : Bytes} {n : Nat} {ts ts' : List Tuple} (h : get key ts' = get key ts)
    (hs : Stored key n ts) : Stored key n ts' := by
  obtain ⟨block, hget, hcells⟩ := hs
  exact ⟨block, h.trans hget, hcells⟩

/-- **One request that fits** is answered, frees no literal, stores what it PUTs and
leaves the other URIs alone. -/
theorem sendReply_fits {node : Node} {request : Request} (hfits : node.fits request)
    (hfree : node.resources.heap.badFree = false) :
    ∃ reply table, sendReply request node.resources = .returns (reply, table) ∧
      table.heap.badFree = false ∧
      (request.isPut → Stored request.target request.payloadLength.toNat table.tuples) ∧
      ∀ uri, (request.target = uri → ¬ request.isPut ∧ ¬ request.isDelete) →
        get uri table.tuples = get uri node.resources.tuples := by
  obtain ⟨⟨reply, table, hreply, hfree'⟩, -⟩ :=
    (@sendReply_up node.resources request hfree).resolve_right fun hdown => hdown.2 hfits.1
  refine ⟨reply, table, hreply, hfree', ?_⟩
  have hserved := sendReply_served request node.resources
  rw [hreply] at hserved
  cases hserved with
  | missing _ hput _ _ => exact ⟨fun hc => absurd hc hput, fun _ _ => rfl⟩
  | found _ hput _ _ _ _ => exact ⟨fun hc => absurd hc hput, fun _ _ => rfl⟩
  | put _ hput _ existed after hset _ =>
      have hstored := set_stored request.payload request.payloadLength.toNat (hfits.2 hput)
      rw [hset] at hstored
      refine ⟨fun _ => hstored, ?_⟩
      intro uri hother
      have hsame := set_get_other request.payload request.payloadLength.toNat node.resources
        fun hc => (hother hc).1 hput
      rwa [hset] at hsame
  | delete _ hput hdelete existed after hset _ =>
      refine ⟨fun hc => absurd hc hput, ?_⟩
      intro uri hother
      have hsame := delete_get_other node.resources fun hc => (hother hc).2 hdelete
      rwa [hset] at hsame
  | other _ hput _ => exact ⟨fun hc => absurd hc hput, fun _ _ => rfl⟩

/-! ### Runs -/

/-- The node serves all these requests itself. -/
def Node.owns (node : Node) (requests : List Request) : Prop :=
  ∀ request ∈ requests, node.responsible (pseudoHash request.target) = true

theorem Node.owns_tail {node : Node} {request : Request} {requests : List Request} (table : Table)
    (h : node.owns (request :: requests)) : Node.owns { node with resources := table } requests :=
  fun request' hmem => h request' (List.mem_cons_of_mem _ hmem)

/-- The first exchange of a run and what is known of the rest of it. -/
theorem exchanges_cons {node : Node} {request : Request} {requests : List Request}
    (howns : node.owns (request :: requests)) (hfree : node.resources.heap.badFree = false)
    (halong : Along Node.next Node.fits node (request :: requests)) :
    ∃ reply table, node.exchanges (request :: requests)
        = (request, some reply) :: Node.exchanges { node with resources := table } requests ∧
      Node.owns { node with resources := table } requests ∧ table.heap.badFree = false ∧
      Along Node.next Node.fits { node with resources := table } requests ∧
      (request.isPut → Stored request.target request.payloadLength.toNat table.tuples) ∧
      (∀ n, request.isGet → Stored request.target n node.resources.tuples →
        ∃ body, reply = .ok n body ∧ body.length = n) ∧
      ∀ uri, (request.target = uri → ¬ request.isPut ∧ ¬ request.isDelete) →
        get uri table.tuples = get uri node.resources.tuples := by
  obtain ⟨reply, table, hreply, hfree', hput, hother⟩ := sendReply_fits halong.1 hfree
  have hanswer := answer_local (howns request (List.mem_cons_self ..)) hreply
  refine ⟨reply, table, ?_, Node.owns_tail table howns, hfree', ?_, hput, ?_, hother⟩
  · simp only [Node.exchanges, hanswer]
    rfl
  · apply halong.2
    simp only [Node.next, hanswer]
  · intro n hget hs
    obtain ⟨block, hblock, hcells⟩ := hs
    have hshort : n ≤ maxValueLength := halong.1.1.get hget _ hblock
    have hok := sendReply_found node.resources hget hblock
    rw [if_neg (Nat.not_lt.mpr hshort), hreply, Outcome.returns.injEq, Prod.mk.injEq] at hok
    refine ⟨block.cells.take n, hok.1, ?_⟩
    rw [List.length_take, hcells, Nat.min_self]

/-- What is stored is kept. -/
theorem kept_of_stored : ∀ (requests : List Request) {node : Node} {uri : Bytes} {n : Nat},
    node.owns requests → node.resources.heap.badFree = false →
    Along Node.next Node.fits node requests → Stored uri n node.resources.tuples →
      Kept uri n (node.exchanges requests) := by
  intro requests
  induction requests with
  | nil =>
      intro node uri n _ _ _ _ before get reply after hlog
      exact absurd hlog.symm (by simp [Node.exchanges])
  | cons request requests ih =>
      intro node uri n howns hfree halong hstored before get reply after hlog hbefore hget htarget
      obtain ⟨reply', table, hex, howns', hfree', halong', -, hfound, hother⟩ :=
        exchanges_cons howns hfree halong
      rw [hex] at hlog
      cases before with
      | nil =>
          rw [List.nil_append, List.cons.injEq, Prod.mk.injEq] at hlog
          obtain ⟨⟨rfl, rfl⟩, -⟩ := hlog
          subst htarget
          obtain ⟨body, hbody, hlen⟩ := hfound n hget hstored
          exact ⟨body, by rw [hbody], hlen⟩
      | cons e before =>
          rw [List.cons_append, List.cons.injEq] at hlog
          obtain ⟨rfl, hlog⟩ := hlog
          have hsame := hother uri (hbefore _ (List.mem_cons_self ..))
          exact ih howns' hfree' halong' (hstored.of_get hsame) before get reply after hlog
            (fun e he => hbefore e (List.mem_cons_of_mem _ he)) hget htarget

/-- Every acknowledged PUT of a run that fits is kept, from any table that is sound. -/
theorem durable_of_fits : ∀ (requests : List Request) {node : Node}, node.owns requests →
    node.resources.heap.badFree = false → Along Node.next Node.fits node requests →
      Durable (node.exchanges requests) := by
  intro requests
  induction requests with
  | nil =>
      intro node _ _ _ before put reply after hlog
      exact absurd hlog.symm (by simp [Node.exchanges])
  | cons request requests ih =>
      intro node howns hfree halong before put reply after hlog hput hack
      obtain ⟨reply', table, hex, howns', hfree', halong', hstored, -, -⟩ :=
        exchanges_cons howns hfree halong
      rw [hex] at hlog
      cases before with
      | nil =>
          rw [List.nil_append, List.cons.injEq, Prod.mk.injEq] at hlog
          obtain ⟨⟨rfl, -⟩, rfl⟩ := hlog
          exact kept_of_stored requests howns' hfree' halong' (hstored hput)
      | cons e before =>
          rw [List.cons_append, List.cons.injEq] at hlog
          exact ih howns' hfree' halong' before put reply after hlog.2 hput hack

/-- **Acknowledged writes are durable in every run whose PUTs find room and in which no
request damages memory.** -/
theorem durable (node : Node) (requests : List Request) (hstart : node.resources = initialResources)
    (howns : node.owns requests) (halong : Along Node.next Node.fits node requests) :
    Durable (node.exchanges requests) :=
  durable_of_fits requests howns (by rw [hstart]; rfl) halong

/-! ### A full table -/

def plainRequest (method uri payload : Bytes) : Request :=
  ⟨some method, some uri, [], payload, payload.length⟩

/-- Enough PUTs to fill the table, one more, and a GET of that one. -/
def fillingRequests : List Request :=
  (List.range 98).map (fun k => plainRequest (ascii "PUT") (ascii "/" ++ decimal k) (ascii "x"))
    ++ [plainRequest (ascii "GET") (ascii "/97") []]

/-- The last PUT is answered 201 and its URI is not found. -/
theorem acknowledged_and_forgotten : ¬ Durable (loneNode.exchanges fillingRequests) := by
  intro hdurable
  let put := plainRequest (ascii "PUT") (ascii "/97") (ascii "x")
  let get := plainRequest (ascii "GET") (ascii "/97") []
  have hlast : (loneNode.exchanges fillingRequests).drop 97
      = (put, some .created) :: [(get, some .notFound)] := by decide +kernel
  have hlog := (List.take_append_drop 97 (loneNode.exchanges fillingRequests)).symm
  rw [hlast] at hlog
  have hkept := hdurable _ put (some .created) _ hlog (by decide) (Or.inl rfl)
  obtain ⟨body, hbody, -⟩ := hkept [] get (some .notFound) [] rfl (by simp) (by decide) (by decide)
  exact absurd hbody (by simp)

/-- A run that fits: an upload, its replacement, which ends with a zero byte, and a look at it. -/
def uploadRequests : List Request :=
  [plainRequest (ascii "PUT") (ascii "/a") (ascii "one"),
    plainRequest (ascii "PUT") (ascii "/a") (ascii "two" ++ [0]),
    plainRequest (ascii "GET") (ascii "/a") []]

theorem durable_upload : Durable (loneNode.exchanges uploadRequests) :=
  durable loneNode uploadRequests rfl (by unfold Node.owns; decide +kernel) (by decide +kernel)

end ChordDht.Chord
