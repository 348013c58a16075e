/-
The ring as one store.

`View` is what a store is for: a value under each URI.  `View.serve` answers a request from
it, with no tables, tuples or blocks.  The tables of the nodes are the parts of one view:
each node has the values of the URIs it owns, and it is the only one that serves them.  So
whatever the nodes, the datagrams and the redirects do in between, the requests that are
served at all are answered as by a single store that was asked them in the same order.

A table has a fixed number of tuples and forgets what it has no room for, and a value that
overwrites another is kept as it was put only if it ends with its only zero byte; the runs
here are those in which every PUT is kept.
-/
import ChordDht.Lib.FiniteMap
import ChordDht.Chord.Network
import ChordDht.Chord.Overwrite
import ChordDht.Chord.Ownership
import ChordDht.Chord.Redirects
import ChordDht.Chord.Serving

namespace ChordDht.Chord

open Slots Trace

/-- What a store shows under each URI: bytes, and how many. -/
abbrev View := Bytes → Option (List Cell × Nat)

namespace View

/-- What is shown after a PUT: what was put. -/
def put (view : View) (key value : Bytes) (n : Nat) : View :=
  Function.update view key (some ((value.take n).map some, n))

/-- The answer to a request, and the view after it. -/
def serve (view : View) (request : Request) : Reply × View :=
  if request.isGet then
    match view request.target with
    | some (cells, n) => (.ok n (cells.take n), view)
    | none => (.notFound, view)
  else if request.isPut then
    (if (view request.target).isSome then .noContent else .created,
      view.put request.target request.payload request.payloadLength.toNat)
  else if request.isDelete then
    (if (view request.target).isSome then .noContent else .deleteNotFound,
      Function.update view request.target none)
  else (.methodNotSupported, view)

/-- One store that is asked one request after another. -/
def replies : View → List Request → List Reply
  | _, [] => []
  | view, request :: requests => (view.serve request).1 :: (view.serve request).2.replies requests

/-- A request is about its own URI. -/
theorem serve_target (view : View) (request : Request) :
    (view.serve request).2 = Function.update view request.target ((view.serve request).2 request.target) := by
  unfold serve
  split
  · split
    · exact (Function.update_eq_self _ _).symm
    · exact (Function.update_eq_self _ _).symm
  · split
    · simp only [put, Function.update_self]
    · split
      · simp only [Function.update_self]
      · exact (Function.update_eq_self _ _).symm

theorem serve_congr {view view' : View} {request : Request} (h : view request.target = view' request.target) :
    (view.serve request).1 = (view'.serve request).1 ∧
      (view.serve request).2 request.target = (view'.serve request).2 request.target := by
  unfold serve put
  rw [h]
  split
  · split
    · exact ⟨rfl, h⟩
    · exact ⟨rfl, h⟩
  · split
    · exact ⟨rfl, by simp only [Function.update_self]⟩
    · split
      · exact ⟨rfl, by simp only [Function.update_self]⟩
      · exact ⟨rfl, h⟩

end View

/-! ### What is kept -/

/-- A PUT is kept as it was put: its bytes are there, there is a tuple for them, and if they replace
others their only zero byte is the last. -/
structure PutKept (key value : Bytes) (n : Nat) (tuples : List Tuple) : Prop where
  room : HasRoom key tuples
  there : n ≤ value.length
  terminated : find key tuples ≠ none → value.take n = cstr (value.take n) ++ [0]

instance (key value : Bytes) (n : Nat) (tuples : List Tuple) : Decidable (PutKept key value n tuples) :=
  decidable_of_iff (HasRoom key tuples ∧ n ≤ value.length ∧
    (find key tuples ≠ none → value.take n = cstr (value.take n) ++ [0]))
    ⟨fun h => ⟨h.1, h.2.1, h.2.2⟩, fun h => ⟨h.room, h.there, h.terminated⟩⟩

/-- What `strcpy` copies of bytes whose only zero byte is the last, whatever stands behind them. -/
theorem cstr_of_terminated {value : Bytes} {n : Nat} (h : value.take n = cstr (value.take n) ++ [0]) :
    value.take n = cstr value ++ [0] := by
  have hvalue : value = cstr (value.take n) ++ 0 :: value.drop n := by
    rw [← List.singleton_append, ← List.append_assoc, ← h, List.take_append_drop]
  rw [hvalue, cstr_front, cstr_cstr, ← hvalue, h, cstr_append_zero (zero_notMem_cstr _) []]

/-! ### The view of a table -/

/-- What a table shows. -/
def Table.view (table : Table) : View := fun key => seen key table.tuples

/-- No key is in two tuples, and whatever has a key has a value. -/
structure Table.Clean (table : Table) : Prop where
  distinct : Distinct table.tuples
  valued : ∀ t ∈ table.tuples, t.key ≠ none → t.value ≠ none

theorem clean_initial : initialResources.Clean :=
  ⟨by decide +kernel, by decide +kernel⟩

/-- A call leaves no key without a value. -/
theorem call_clean {table : Table} (h : table.Clean) (op : Op) : (op.call table).2.Clean := by
  refine ⟨call_distinct h.distinct op, ?_⟩
  have hcalled := call_cases op table
  generalize op.call table = result at hcalled ⊢
  have hwrite : ∀ {before after : List Tuple} {t t' : Tuple}, table.tuples = before ++ t :: after →
      (t'.key ≠ none → t'.value ≠ none) →
        ∀ u ∈ before ++ t' :: after, u.key ≠ none → u.value ≠ none := by
    intro before after t t' htable hnew u hu
    rcases List.mem_append.mp hu with hu | hu
    · exact h.valued u (by rw [htable]; exact List.mem_append_left _ hu)
    · rcases List.mem_cons.mp hu with rfl | hu
      · exact hnew
      · exact h.valued u (by rw [htable]; exact List.mem_append_right _ (List.mem_cons_of_mem _ hu))
  cases hcalled with
  | overwritten htable _ => exact hwrite htable fun _ => Option.some_ne_none _
  | created htable _ _ => exact hwrite htable fun _ => Option.some_ne_none _
  | deleted htable _ => exact hwrite htable fun hc => absurd rfl hc
  | full _ _ => exact h.valued
  | missing _ => exact h.valued

/-- A URI is shown exactly if the search stops for it. -/
theorem view_isSome {table : Table} (h : table.Clean) (key : Bytes) :
    (table.view key).isSome = (find key table.tuples).isSome := by
  unfold Table.view seen get
  cases hf : find key table.tuples with
  | none => rfl
  | some i =>
      obtain ⟨htuple, hkey⟩ := find_tuple hf
      have hvalue := h.valued _ (List.mem_of_getElem? htuple) (by
        intro hnone
        have hsome := key_of_hasKey hkey
        rw [hnone] at hsome
        cases hsome)
      obtain ⟨block, hblock⟩ := Option.ne_none_iff_exists'.mp hvalue
      show (((table.tuples[i]?).bind fun t => t.value.bind fun b => some (b, t.valueLength)).map _).isSome = _
      rw [htuple, Option.bind_some, hblock]
      rfl

/-- After `delete` the key is nowhere. -/
theorem view_delete {table : Table} (h : table.Clean) (key : Bytes) :
    (delete key table).2.view = Function.update table.view key none := by
  funext key'
  by_cases hk : key' = key
  · subst hk
    rw [Function.update_self]
    have hclean := call_clean h (.delete key')
    have hnone : find key' (delete key' table).2.tuples = none := by
      have hcalled := delete_called key' table
      have hdistinct := h.distinct
      rw [find_eq_none_iff]
      generalize delete key' table = result at hcalled ⊢
      cases hcalled with
      | deleted htable hkey =>
          rw [Distinct, htable, keys_between, key_of_hasKey hkey] at hdistinct
          have hperm := (List.perm_middle).nodup_iff.mp hdistinct
          rw [keys_between]
          exact (List.nodup_cons.mp hperm).1
      | missing hmiss => exact hmiss
    have hsome := view_isSome hclean key'
    have hnone' : find key' (Op.call (.delete key') table).2.tuples = none := hnone
    rw [hnone'] at hsome
    exact Option.isNone_iff_eq_none.mp (by
      rw [← Option.not_isSome]
      exact (Bool.not_eq_true' _).mpr hsome)
  · rw [Function.update_of_ne hk]
    show (get key' _).map _ = (get key' _).map _
    rw [delete_get_other table (Ne.symm hk)]

/-- After `set` of a value that is kept the key has what was put there. -/
theorem view_set {table : Table} {key value : Bytes} {n : Nat} (hkept : PutKept key value n table.tuples) :
    (set key value n table).2.view = table.view.put key value n := by
  funext key'
  unfold View.put
  by_cases hk : key' = key
  · subst hk
    obtain ⟨block, hget, hcells⟩ := set_get value n hkept.room
    have hcopied : copied key' value n table.tuples = value.take n := by
      unfold copied
      split
      case isTrue hsome =>
        exact (cstr_of_terminated (hkept.terminated (Option.isSome_iff_ne_none.mp hsome))).symm
      case isFalse => rfl
    have hlength : (value.take n).length = n := List.length_take_of_le hkept.there
    rw [Function.update_self]
    show (get key' _).map _ = _
    rw [hget, Option.map_some, hcells, hcopied, storeCells_exact (by rw [List.length_replicate, hlength])]
  · rw [Function.update_of_ne hk]
    show (get key' _).map _ = (get key' _).map _
    rw [set_get_other value n table (Ne.symm hk)]

theorem set_existed (key value : Bytes) (n : Nat) (table : Table) :
    (set key value n table).1 = (find key table.tuples).isSome := by
  unfold set
  cases find key table.tuples with
  | some i => rfl
  | none =>
      cases table.tuples.findIdx? (·.key.isNone) with
      | some i => rfl
      | none => rfl

theorem delete_existed (key : Bytes) (table : Table) :
    (delete key table).1 = (find key table.tuples).isSome := by
  unfold delete
  cases find key table.tuples with
  | some i => rfl
  | none => rfl

/-- **A table serves its view.** -/
theorem sendReply_view {request : Request} {table : Table} (h : table.Clean)
    (hkept : request.isPut →
      PutKept request.target request.payload request.payloadLength.toNat table.tuples)
    {reply : Reply} {table' : Table} (hreply : sendReply request table = .returns (reply, table')) :
    (table.view.serve request) = (reply, table'.view) ∧ table'.Clean := by
  have hserved := sendReply_served request table
  rw [hreply] at hserved
  have hview : table.view request.target = (get request.target table.tuples).map fun p => (p.1.cells, p.2) := rfl
  unfold View.serve
  cases hserved with
  | missing hget _ _ hfound =>
      rw [hfound] at hview
      rw [if_pos hget, hview]
      exact ⟨rfl, h⟩
  | found hget _ _ block n hfound =>
      rw [hfound] at hview
      rw [if_pos hget, hview]
      exact ⟨rfl, h⟩
  | put hget hput _ existed _ hset _ =>
      have hexisted := set_existed request.target request.payload request.payloadLength.toNat table
      have hafter := view_set (hkept hput)
      have hclean := call_clean h (.set request.target request.payload request.payloadLength.toNat)
      rw [Op.call, hset] at hclean
      rw [hset] at hexisted hafter
      rw [if_neg hget, if_pos hput, view_isSome h, ← hexisted, ← hafter]
      exact ⟨rfl, hclean⟩
  | delete hget hput hdelete existed _ hset _ =>
      have hexisted := delete_existed request.target table
      have hafter := view_delete h request.target
      have hclean := call_clean h (.delete request.target)
      rw [Op.call, hset] at hclean
      rw [hset] at hexisted hafter
      rw [if_neg hget, if_neg hput, if_pos hdelete, view_isSome h, ← hexisted, ← hafter]
      exact ⟨rfl, hclean⟩
  | other hget hput hdelete =>
      rw [if_neg hget, if_neg hput, if_neg hdelete]
      exact ⟨rfl, h⟩

/-! ### The tables of a ring -/

variable {r : Ring}

/-- The request that is served in this step, and its reply. -/
def Event.exchange (s : Net r) : Event r → Option (Request × Reply)
  | .request i mem n =>
      match processPacket (s.nodes i) mem n with
      | .returns packet => (packet.answer.replies.find? Reply.fromTable).map fun reply => (packet.request, reply)
      | _ => none
  | _ => none

/-- All requests that are served in a run, in order. -/
def Net.log (s : Net r) : List (Event r) → List (Request × Reply)
  | [] => []
  | e :: events => (e.exchange s).toList ++ (s.step e).elim [] fun s' => s'.log events

/-- A node that has to store something keeps it. -/
def Event.keeps (s : Net r) : Event r → Prop
  | .request i mem n => ∀ parsed, parseRequest mem n emptyRequest = .returns parsed → 0 < parsed.ret →
      (s.nodes i).responsible (pseudoHash parsed.request.target) = true → parsed.request.isPut →
        PutKept parsed.request.target parsed.request.payload parsed.request.payloadLength.toNat
          (s.nodes i).resources.tuples
  | _ => True

instance (s : Net r) (e : Event r) : Decidable (e.keeps s) := by
  cases e <;> (unfold Event.keeps; infer_instance)

/-- No node of the ring takes itself to be alone by mistake. -/
def Ring.Proper (r : Ring) : Prop := ¬ (r.size = 2 ∧ ∃ i, r.id i = 0)

instance (r : Ring) : Decidable r.Proper := by unfold Ring.Proper; infer_instance

theorem Ring.Proper.responsible_iff (hr : r.Proper) {nodes : Fin r.size → Node}
    (hc : ∀ i, Configured r i (nodes i)) (uri : Bytes) (j : Fin r.size) :
    (nodes j).responsible (pseudoHash uri) = true ↔ r.Owns j (pseudoHash uri) := by
  have hnot : ¬ Shadowed r (pseudoHash uri) := by
    rintro ⟨hsize, i, -, -, hid, -⟩
    exact hr ⟨hsize, i, hid⟩
  exact (responsible_iff_owns hc).mpr hnot j

namespace Net

/-- The tables are the parts of one view. -/
structure Shows (s : Net r) (view : View) : Prop where
  sound : s.Sound
  clean : ∀ i, (s.nodes i).resources.Clean
  parts : PartsOf (fun i uri => r.Owns i (pseudoHash uri)) (fun i => (s.nodes i).resources.view) view

theorem shows_start (r : Ring) : (start r).Shows initialResources.view :=
  ⟨sound_start r, fun _ => clean_initial, fun _ _ _ => rfl⟩

/-- Nothing is served while the tables stay. -/
theorem Shows.of_same {s s' : Net r} {view : View} (h : s.Shows view) (hsound : s'.Sound)
    (hsame : ∀ i, (s'.nodes i).resources = (s.nodes i).resources) : s'.Shows view := by
  refine ⟨hsound, ?_, ?_⟩
  · intro i
    rw [hsame]
    exact h.clean i
  · intro i uri hown
    show (s'.nodes i).resources.view uri = view uri
    rw [hsame]
    exact h.parts i uri hown

theorem foldl_launch_nodes : ∀ (ds : List Datagram) (s : Net r), (ds.foldl launch s).nodes = s.nodes := by
  intro ds
  induction ds with
  | nil => intro s; rfl
  | cons d ds ih =>
      intro s
      rw [List.foldl_cons, ih]
      unfold launch
      split <;> rfl

theorem respond_nodes (s : Net r) (i : Fin r.size) (answer : Answer) :
    (s.respond i answer).nodes = Function.update s.nodes i answer.node :=
  foldl_launch_nodes answer.lookups _

/-- An answer that leaves the table as it is. -/
theorem Shows.respond_same {s : Net r} {view : View} (h : s.Shows view) {i : Fin r.size} {answer : Answer}
    (hsound : (s.respond i answer).Sound) (hsame : answer.node.resources = (s.nodes i).resources) :
    (s.respond i answer).Shows view := by
  refine h.of_same hsound ?_
  intro j
  rw [respond_nodes]
  by_cases hj : j = i
  · rw [hj, Function.update_self, hsame]
  · rw [Function.update_of_ne hj]

/-- **A request that is served** is answered from the view, and the tables are the parts of
the view after it. -/
theorem Shows.serve {s : Net r} {view : View} (h : s.Shows view) {i : Fin r.size} {request : Request}
    (hown : r.Owns i (pseudoHash request.target)) {reply : Reply} {table : Table}
    (hkept : request.isPut → PutKept request.target request.payload request.payloadLength.toNat
      (s.nodes i).resources.tuples)
    (hreply : sendReply request (s.nodes i).resources = .returns (reply, table)) {s' : Net r}
    (hsound : s'.Sound)
    (hnodes : s'.nodes = Function.update s.nodes i { s.nodes i with resources := table }) :
    reply = (view.serve request).1 ∧ s'.Shows (view.serve request).2 := by
  obtain ⟨hserve, hclean⟩ := sendReply_view (h.clean i) hkept hreply
  have hpart : (s.nodes i).resources.view request.target = view request.target := h.parts i _ hown
  obtain ⟨hsame, htarget⟩ := View.serve_congr hpart
  rw [hserve] at hsame htarget
  refine ⟨hsame, hsound, ?_, ?_⟩
  · intro j
    rw [hnodes]
    by_cases hj : j = i
    · rw [hj, Function.update_self]
      exact hclean
    · rw [Function.update_of_ne hj]
      exact h.clean j
  · have hwritten := h.parts.write (fun j hj => Ring.owns_unique hj hown)
      ((view.serve request).2 request.target)
    rw [← View.serve_target, ← htarget] at hwritten
    have htable : table.view = Function.update (s.nodes i).resources.view request.target
        (table.view request.target) := by
      have hchange := View.serve_target (s.nodes i).resources.view request
      rwa [hserve] at hchange
    have hparts : (fun j => (s'.nodes j).resources.view)
        = Function.update (fun j => (s.nodes j).resources.view) i table.view := by
      funext j
      rw [hnodes]
      by_cases hj : j = i
      · rw [hj, Function.update_self, Function.update_self]
      · rw [Function.update_of_ne hj, Function.update_of_ne hj]
    rw [hparts, htable]
    exact hwritten

/-- The request of a packet is the one that was parsed. -/
theorem processPacket_request {node : Node} {mem : Bytes} {n : Nat} {packet : Packet} {parsed : Parse}
    (h : processPacket node mem n = .returns packet)
    (hparse : parseRequest mem n emptyRequest = .returns parsed) (hpos : 0 < parsed.ret) :
    packet.request = parsed.request := by
  rw [processPacket_parsed hparse hpos] at h
  obtain ⟨answer, -, h⟩ := Outcome.bind_eq_returns.mp h
  rw [← Outcome.returns.inj h]

/-- **One step of the ring** serves a request from the one view, or serves none and leaves it. -/
theorem step_shows {s s' : Net r} {e : Event r} {view : View} (hr : r.Proper) (h : s.Shows view)
    (hkeeps : e.keeps s) (hstep : s.step e = some s') :
    (e.exchange s = none ∧ s'.Shows view) ∨ ∃ request, e.exchange s = some (request, (view.serve request).1) ∧
      s'.Shows (view.serve request).2 := by
  have hsound := step_sound h.sound hstep
  cases e with
  | request i mem n =>
      simp only [step] at hstep
      cases hp : processPacket (s.nodes i) mem n with
      | diverges | exits | faults =>
          simp only [hp, reduceCtorEq] at hstep
      | returns packet =>
          have hex : Event.exchange s (.request i mem n)
              = (packet.answer.replies.find? Reply.fromTable).map fun reply => (packet.request, reply) := by
            simp only [Event.exchange, hp]
          simp only [hp, Option.some.injEq] at hstep
          rw [← hstep] at hsound ⊢
          rw [hex]
          rcases processPacket_cases hp with ⟨parsed, hparse, hpos, hanswer⟩ | ⟨-, hnode, -, hbad⟩
          · have hrequest := processPacket_request hp hparse hpos
            by_cases hresp : (s.nodes i).responsible (pseudoHash parsed.request.target) = true
            · have hown := (hr.responsible_iff h.sound.configured _ i).mp hresp
              have hkept := hkeeps parsed hparse hpos hresp
              obtain ⟨reply, table, hreply, hanswer⟩ := answer_served hresp hanswer
              obtain ⟨hserved, hshows⟩ := h.serve hown hkept hreply hsound
                (by rw [respond_nodes, hanswer])
              refine Or.inr ⟨parsed.request, ?_, hshows⟩
              rw [← hserved, hanswer, hrequest, List.find?_cons_of_pos (sendReply_fromTable hreply)]
              rfl
            · rw [answer_delegated hresp, Outcome.returns.injEq] at hanswer
              refine Or.inl ⟨?_, h.respond_same hsound ?_⟩
              · rw [← hanswer, delegate_fromTable]
                rfl
              · rw [← hanswer, delegate_resources]
          · refine Or.inl ⟨?_, h.respond_same hsound (by rw [hnode])⟩
            have hnone : packet.answer.replies.find? Reply.fromTable = none := by
              rw [List.find?_eq_none]
              intro reply hreply
              rw [List.mem_singleton.mp (hbad hreply)]
              exact Bool.false_ne_true
            rw [hnone]
            rfl
  | inject i m =>
      refine Or.inl ⟨rfl, h.of_same hsound ?_⟩
      simp only [step] at hstep
      split at hstep
      · rw [← Option.some.inj hstep]
        intro j
        unfold launch
        split <;> rfl
      · cases hstep
  | deliver k =>
      obtain ⟨p, -, rfl⟩ := Option.map_eq_some_iff.mp hstep
      exact Or.inl ⟨rfl, h.of_same hsound fun j => arrive_resources ..⟩
  | lose k =>
      obtain ⟨p, -, rfl⟩ := Option.map_eq_some_iff.mp hstep
      exact Or.inl ⟨rfl, h.of_same hsound fun _ => rfl⟩
  | duplicate k =>
      obtain ⟨p, -, rfl⟩ := Option.map_eq_some_iff.mp hstep
      exact Or.inl ⟨rfl, h.of_same hsound fun _ => rfl⟩

/-- A node that goes down on a request serves nothing. -/
theorem exchange_of_stuck {s : Net r} {e : Event r} (hstep : s.step e = none) : e.exchange s = none := by
  cases e with
  | request i mem n =>
      simp only [step] at hstep
      cases hp : processPacket (s.nodes i) mem n with
      | diverges | exits | faults => simp only [Event.exchange, hp]
      | returns packet => simp only [hp, reduceCtorEq] at hstep
  | inject | deliver | lose | duplicate => rfl

/-- What is served in a run is what the view serves. -/
theorem log_of_shows (hr : r.Proper) : ∀ (events : List (Event r)) {s : Net r} {view : View}, s.Shows view →
    Along step (fun s e => e.keeps s) s events →
      (s.log events).map Prod.snd = view.replies ((s.log events).map Prod.fst) := by
  intro events
  induction events with
  | nil => intro s view _ _; rfl
  | cons e events ih =>
      intro s view h halong
      rw [log, List.map_append, List.map_append]
      cases hstep : s.step e with
      | none =>
          rw [exchange_of_stuck hstep]
          rfl
      | some s' =>
          rcases step_shows hr h halong.1 hstep with ⟨hnone, hshows⟩ | ⟨request, hsome, hshows⟩
          · rw [hnone]
            exact ih hshows (halong.2 s' hstep)
          · rw [hsome]
            show (view.serve request).1 :: _ = (view.serve request).1 :: _
            exact congrArg _ (ih hshows (halong.2 s' hstep))

end Net

/-- **The ring is one store.**  Requests to any nodes, in any order, with datagrams delivered,
lost and repeated in any order in between, and every PUT kept: the requests that are served
are answered as one store answers them. -/
theorem ring_is_one_store (r : Ring) (hr : r.Proper) (events : List (Event r))
    (hkeeps : Along Net.step (fun s e => e.keeps s) (Net.start r) events) :
    ((Net.start r).log events).map Prod.snd
      = initialResources.view.replies (((Net.start r).log events).map Prod.fst) :=
  Net.log_of_shows hr events (Net.shows_start r) hkeeps

/-- A client stores `/aa` at the second node, which owns it, replaces what it stored, and asks the
first node for it: it is sent on, and gets what was stored last.  Its LOOKUP for `/a` is lost
meanwhile. -/
def storeAndFetch : List (Event threeNodes) :=
  let first : Fin threeNodes.size := ⟨0, threeNodes.pos⟩
  let second : Fin threeNodes.size := ⟨1, by decide⟩
  let put := ascii "PUT /aa HTTP/1.1\r\nContent-Length: 2\r\n\r\nhi"
  let again := ascii "PUT /aa HTTP/1.1\r\nContent-Length: 3\r\n\r\nho\x00"
  [.request second put put.length, .request first (getRequest "/a") 19, .lose 0,
    .request second again again.length, .request first (getRequest "/aa") 20,
    .request second (getRequest "/aa") 20]

theorem ring_is_one_store_fetch :
    ((Net.start threeNodes).log storeAndFetch).map Prod.snd
        = [.created, .noContent, .ok 3 ((ascii "ho\x00").map some)] ∧
      ((Net.start threeNodes).log storeAndFetch).map Prod.snd
        = initialResources.view.replies (((Net.start threeNodes).log storeAndFetch).map Prod.fst) :=
  ⟨by decide +kernel, ring_is_one_store threeNodes (by decide) storeAndFetch (by decide +kernel)⟩

end ChordDht.Chord
