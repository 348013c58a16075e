/-
Which pointers are passed to `free`.

The blocks that `set` allocates are held by the tuples, and a call gives back those of its
own tuple: a turn of the ledger.  But the table starts with tuples that hold string
literals, and their URIs can be asked for like any other.  A run gives back what it may
exactly when it never writes to one of these.
-/
import ChordDht.Lib.Ledger
import ChordDht.Chord.Replies
import ChordDht.Chord.Tuples

namespace ChordDht.Chord

open Trace

/-- The pointers that a tuple holds. -/
def Tuple.pointers (t : Tuple) : List Origin :=
  (t.key.map (·.origin)).toList ++ (t.value.map (·.origin)).toList

def pointers (tuples : List Tuple) : List Origin := tuples.flatMap Tuple.pointers

/-- The block was returned by `malloc` and has not been freed. -/
def Heap.Live (heap : Heap) (ptr : Origin) : Prop :=
  (∃ serial < heap.serial, ptr = .malloc serial) ∧ ptr ∉ heap.freed

/-- What is freed between two tables is live, each block is freed once, and none of them is
referenced afterwards. -/
structure FreesLive (before after : Table) : Prop where
  freed : ∃ ptrs, after.heap.freed = ptrs ++ before.heap.freed ∧ ptrs.Nodup ∧
    ∀ ptr ∈ ptrs, before.heap.Live ptr
  dangling : ∀ ptr ∈ pointers after.tuples, ptr ∉ after.heap.freed

/-- The call that a request makes, if it writes to the table. -/
def Request.op (request : Request) : Option Op :=
  if request.isPut then some (.set request.target request.payload request.payloadLength.toNat)
  else if request.isDelete then some (.delete request.target)
  else none

/-- The table after a request, also where that does damage. -/
def Table.served (table : Table) (request : Request) : Table :=
  request.op.elim table fun op => (op.call table).2

/-- The URIs of the initialiser of `resources`. -/
def initialUris : List Bytes := [ascii "/static/foo", ascii "/static/bar", ascii "/static/baz"]

/-- **Serving a request** comes to this table, or to the end of the node. -/
theorem sendReply_table (request : Request) (table : Table) :
    (∃ reply, sendReply request table = .returns (reply, table.served request)) ∨
      sendReply request table = .faults ∧ (table.heap.damaged (table.served request).heap = true ∨
        request.isGet ∧ ∃ found ∈ get request.target table.tuples, maxValueLength < found.2) := by
  have hserved := sendReply_served request table
  generalize sendReply request table = outcome at hserved ⊢
  unfold Table.served Request.op
  cases hserved with
  | missing _ hput hdelete _ =>
      rw [if_neg hput, if_neg hdelete]
      exact Or.inl ⟨_, rfl⟩
  | found _ hput hdelete _ _ _ =>
      rw [if_neg hput, if_neg hdelete]
      exact Or.inl ⟨_, rfl⟩
  | overrun hget hput hdelete block n hfound hlong =>
      rw [if_neg hput, if_neg hdelete]
      exact Or.inr ⟨rfl, Or.inr ⟨hget, _, hfound, hlong⟩⟩
  | put _ hput _ existed after hset _ =>
      rw [if_pos hput]
      exact Or.inl ⟨_, congrArg (fun r => Outcome.returns (_, r.2)) hset.symm⟩
  | putDamaged _ hput _ hdamaged =>
      rw [if_pos hput]
      exact Or.inr ⟨rfl, Or.inl hdamaged⟩
  | delete _ hput hdelete existed after hset _ =>
      rw [if_neg hput, if_pos hdelete]
      exact Or.inl ⟨_, congrArg (fun r => Outcome.returns (_, r.2)) hset.symm⟩
  | deleteDamaged _ hput hdelete hdamaged =>
      rw [if_neg hput, if_pos hdelete]
      exact Or.inr ⟨rfl, Or.inl hdamaged⟩
  | other _ hput hdelete =>
      rw [if_neg hput, if_neg hdelete]
      exact Or.inl ⟨_, rfl⟩

/-! ### Pointers as serials -/

/-- The serials of the pointers that `malloc` returned. -/
def serials (ptrs : List Origin) : List Nat :=
  ptrs.filterMap fun ptr =>
    match ptr with
    | .literal => none
    | .malloc serial => some serial

theorem serials_append (ptrs ptrs' : List Origin) : serials (ptrs ++ ptrs') = serials ptrs ++ serials ptrs' :=
  List.filterMap_append

/-- Without a literal the serials are all there is. -/
theorem map_serials {ptrs : List Origin} (h : .literal ∉ ptrs) : (serials ptrs).map .malloc = ptrs := by
  induction ptrs with
  | nil => rfl
  | cons ptr ptrs ih =>
      rw [List.mem_cons, not_or] at h
      cases ptr with
      | literal => exact absurd rfl h.1
      | malloc serial =>
          show Origin.malloc serial :: (serials ptrs).map .malloc = _
          rw [ih h.2]

theorem mem_serials {ptrs : List Origin} {serial : Nat} : serial ∈ serials ptrs ↔ .malloc serial ∈ ptrs := by
  unfold serials
  rw [List.mem_filterMap]
  constructor
  · rintro ⟨ptr, hptr, hserial⟩
    cases ptr with
    | literal => cases hserial
    | malloc serial' =>
        rw [Option.some.injEq] at hserial
        rwa [← hserial]
  · intro h
    exact ⟨_, h, rfl⟩

theorem pointers_between (before after : List Tuple) (t : Tuple) :
    pointers (before ++ t :: after) = pointers before ++ (t.pointers ++ pointers after) := by
  simp [pointers]

/-! ### One call -/

/-- The blocks that the tuples hold. -/
def Table.held (table : Table) : List Nat := serials (pointers table.tuples)

/-- No block is lost or shared, and none but blocks was freed. -/
structure Table.Accounted (table : Table) : Prop where
  ledger : Ledger.Sound table.heap.serial table.held (serials table.heap.freed)
  freed : .literal ∉ table.heap.freed

/-- **A turn of the ledger** frees what is live. -/
theorem Table.Accounted.turn {table table' : Table} {ptrs : List Origin} {kept taken : List Nat}
    (h : table.Accounted) (hptrs : .literal ∉ ptrs) (hlog : table'.heap.freed = ptrs ++ table.heap.freed)
    (hheld : table.held.Perm (serials ptrs ++ kept)) (hheld' : table'.held.Perm (taken ++ kept))
    (hnext : table.heap.serial ≤ table'.heap.serial) (htaken : taken.Nodup)
    (hfresh : ∀ n ∈ taken, table.heap.serial ≤ n ∧ n < table'.heap.serial) :
    table'.Accounted ∧ FreesLive table table' := by
  have hfreed' : (serials table'.heap.freed).Perm (serials ptrs ++ serials table.heap.freed) := by
    rw [hlog, serials_append]
  have hledger := h.ledger.turn hheld hheld' hfreed' hnext htaken hfresh
  have hliteral : .literal ∉ table'.heap.freed := by
    rw [hlog, List.mem_append, not_or]
    exact ⟨hptrs, h.freed⟩
  obtain ⟨hnodup, hlive⟩ := h.ledger.live hheld
  refine ⟨⟨hledger, hliteral⟩, ⟨ptrs, hlog, ?_, ?_⟩, ?_⟩
  · rw [← map_serials hptrs]
    exact hnodup.map fun a b hab => Origin.malloc.inj hab
  · intro ptr hptr
    rw [← map_serials hptrs] at hptr
    obtain ⟨serial, hserial, rfl⟩ := List.mem_map.mp hptr
    obtain ⟨hlt, hnot⟩ := hlive serial hserial
    exact ⟨⟨serial, hlt, rfl⟩, fun hc => hnot (mem_serials.mpr hc)⟩
  · intro ptr hptr hfreed
    cases ptr with
    | literal => exact hliteral hfreed
    | malloc serial =>
        exact hledger.held_notMem serial (mem_serials.mpr hptr) (mem_serials.mpr hfreed)

section Calls

variable {table : Table} {before after : List Tuple} {t : Tuple} (h : table.Accounted)
  (htable : table.tuples = before ++ t :: after)

include h htable

/-- Overwriting gives back the old value for a new one. -/
theorem accounted_overwrite (hvalue : t.value.map (·.origin) ≠ some .literal) (value : Bytes) (n : Nat)
    {table' : Table} (htable' : table' = ⟨before ++ (overwrite t value n table.heap).1 :: after,
      (overwrite t value n table.heap).2⟩) : table'.Accounted ∧ FreesLive table table' := by
  have hserial : (overwrite t value n table.heap).2.serial = table.heap.serial + 1 := by
    show (table.heap.free _).serial + 1 = _
    rw [free_serial]
  have hpointers : (overwrite t value n table.heap).1.pointers
      = (t.key.map (·.origin)).toList ++ [.malloc table.heap.serial] := by
    show _ ++ [Origin.malloc (table.heap.free _).serial] = _
    rw [free_serial]
    rfl
  refine @Table.Accounted.turn table table' (t.value.map (·.origin)).toList
    (serials (pointers before) ++ (serials (t.key.map (·.origin)).toList ++ serials (pointers after)))
    [table.heap.serial] h ?_ ?_ ?_ ?_ ?_ (List.nodup_singleton _) ?_
  · rwa [Option.mem_toList]
  · rw [htable']
    exact free_freed table.heap _
  · rw [Table.held, htable, pointers_between, Tuple.pointers, List.perm_iff_count]
    intro m
    simp only [serials_append, List.count_append]
    omega
  · rw [Table.held, htable', pointers_between, hpointers, List.perm_iff_count]
    intro m
    simp only [serials_append, List.count_append]
    have hnew : serials [.malloc table.heap.serial] = [table.heap.serial] := rfl
    rw [hnew]
    omega
  · rw [htable', hserial]
    omega
  · intro m hm
    rw [List.mem_singleton.mp hm, htable', hserial]
    omega

/-- Creating gives nothing back and takes two blocks. -/
theorem accounted_create (hempty : t.pointers = []) (key value : Bytes) (n : Nat) {table' : Table}
    (htable' : table' = ⟨before ++ (create key value n table.heap).1 :: after,
      (create key value n table.heap).2⟩) : table'.Accounted ∧ FreesLive table table' := by
  have hserial : (create key value n table.heap).2.serial = table.heap.serial + 2 := rfl
  have hpointers : (create key value n table.heap).1.pointers
      = [.malloc table.heap.serial, .malloc (table.heap.serial + 1)] := rfl
  refine @Table.Accounted.turn table table' [] (serials (pointers before) ++ serials (pointers after))
    [table.heap.serial, table.heap.serial + 1] h List.not_mem_nil ?_ ?_ ?_ ?_ ?_ ?_
  · rw [htable']
    rfl
  · rw [Table.held, htable, pointers_between, hempty, List.nil_append, serials_append]
    exact List.Perm.refl _
  · rw [Table.held, htable', pointers_between, hpointers, List.perm_iff_count]
    intro m
    simp only [serials_append, List.count_append]
    have hnew : serials [.malloc table.heap.serial, .malloc (table.heap.serial + 1)]
        = [table.heap.serial, table.heap.serial + 1] := rfl
    rw [hnew]
    omega
  · rw [htable', hserial]
    omega
  · simp
  · intro m hm
    rw [htable', hserial]
    simp only [List.mem_cons, List.not_mem_nil, or_false] at hm
    omega

/-- Deleting gives back the key and the value. -/
theorem accounted_delete (hliteral : .literal ∉ t.pointers) {table' : Table}
    (htable' : table' = ⟨before ++ hole :: after,
      (table.heap.free (t.key.map (·.origin))).free (t.value.map (·.origin))⟩) :
    table'.Accounted ∧ FreesLive table table' := by
  refine @Table.Accounted.turn table table'
    ((t.value.map (·.origin)).toList ++ (t.key.map (·.origin)).toList)
    (serials (pointers before) ++ serials (pointers after)) [] h ?_ ?_ ?_ ?_ ?_ List.nodup_nil ?_
  · rw [List.mem_append]
    rw [Tuple.pointers, List.mem_append] at hliteral
    exact fun hc => hliteral hc.symm
  · rw [htable', free_freed, free_freed, List.append_assoc]
  · rw [Table.held, htable, pointers_between, Tuple.pointers, List.perm_iff_count]
    intro m
    simp only [serials_append, List.count_append]
    omega
  · rw [Table.held, htable', pointers_between, serials_append]
    exact List.Perm.refl _
  · rw [htable', free_serial, free_serial]
  · intro m hm
    exact absurd hm List.not_mem_nil

end Calls

/-! ### The tuples of the initialiser -/

/-- The table as it is while nothing was written to the initial tuples: their values are
literals, and no other tuple holds one. -/
structure Table.Untouched (table : Table) : Prop where
  accounted : table.Accounted
  there : ∀ uri ∈ initialUris, uri ∈ keys table.tuples
  initial : ∀ t ∈ table.tuples, ∀ uri ∈ initialUris, t.hasKey uri = true →
    t.value.map (·.origin) = some .literal
  other : ∀ t ∈ table.tuples, (∀ uri ∈ initialUris, t.hasKey uri = false) → .literal ∉ t.pointers
  empty : ∀ t ∈ table.tuples, t.key = none → t.pointers = []

theorem untouched_initial : initialResources.Untouched := by
  have hheld : initialResources.held = [] := by decide +kernel
  refine ⟨⟨?_, List.not_mem_nil⟩, by decide +kernel, by decide +kernel, by decide +kernel, by decide +kernel⟩
  rw [hheld]
  exact Ledger.Sound.empty 0

/-- Another tuple in one slot. -/
theorem Table.Untouched.write {table table' : Table} {before after : List Tuple} {t t' : Tuple}
    (h : table.Untouched) (htable : table.tuples = before ++ t :: after)
    (htable' : table'.tuples = before ++ t' :: after) (haccounted : table'.Accounted)
    (hold : ∀ uri ∈ initialUris, t.hasKey uri = false) (hnew : ∀ uri ∈ initialUris, t'.hasKey uri = false)
    (hother : .literal ∉ t'.pointers) (hempty : t'.key = none → t'.pointers = []) : table'.Untouched := by
  have hmem : ∀ u ∈ table'.tuples, u = t' ∨ u ∈ table.tuples := by
    intro u hu
    rw [htable', List.mem_append, List.mem_cons] at hu
    rw [htable, List.mem_append, List.mem_cons]
    tauto
  refine ⟨haccounted, ?_, ?_, ?_, ?_⟩
  · intro uri huri
    obtain ⟨u, hu, hhas⟩ := mem_keys.mp (h.there uri huri)
    rw [htable, List.mem_append, List.mem_cons] at hu
    refine mem_keys.mpr ⟨u, ?_, hhas⟩
    rw [htable', List.mem_append, List.mem_cons]
    rcases hu with hu | rfl | hu
    · exact Or.inl hu
    · rw [hold uri huri] at hhas
      exact Bool.noConfusion hhas
    · exact Or.inr (Or.inr hu)
  · intro u hu uri huri hhas
    rcases hmem u hu with rfl | hu
    · rw [hnew uri huri] at hhas
      exact Bool.noConfusion hhas
    · exact h.initial u hu uri huri hhas
  · intro u hu hnot
    rcases hmem u hu with rfl | hu
    · exact hother
    · exact h.other u hu hnot
  · intro u hu hnone
    rcases hmem u hu with rfl | hu
    · exact hempty hnone
    · exact h.empty u hu hnone

theorem freesLive_refl {table : Table} (h : table.Accounted) : FreesLive table table := by
  refine ⟨⟨[], rfl, List.nodup_nil, fun ptr hptr => absurd hptr List.not_mem_nil⟩, ?_⟩
  intro ptr hptr hfreed
  cases ptr with
  | literal => exact h.freed hfreed
  | malloc serial => exact h.ledger.held_notMem serial (mem_serials.mpr hptr) (mem_serials.mpr hfreed)

/-- **A call for another key** frees what is live, and writes to none of the initial tuples. -/
theorem call_untouched {table : Table} (h : table.Untouched) {op : Op} (hop : op.key ∉ initialUris) :
    (op.call table).2.Untouched ∧ FreesLive table (op.call table).2 := by
  have hcalled := call_cases op table
  have hkeys : ∀ {t : Tuple}, t.hasKey op.key = true → ∀ uri ∈ initialUris, t.hasKey uri = false := by
    intro t hhas uri huri
    exact hasKey_other hhas fun hc => hop (hc ▸ huri)
  generalize op.call table = result at hcalled ⊢
  cases hcalled with
  | @overwritten key value n before after t htable hkey =>
      have ht : t ∈ table.tuples := by
        rw [htable]
        exact List.mem_append_right _ (List.mem_cons_self ..)
      have hliteral := h.other t ht (hkeys hkey)
      rw [Tuple.pointers, List.mem_append, not_or] at hliteral
      have hvalue : t.value.map (·.origin) ≠ some .literal := fun hc => hliteral.2 (Option.mem_toList.mpr hc)
      obtain ⟨haccounted, hfrees⟩ := accounted_overwrite h.accounted htable hvalue value n rfl
      refine ⟨h.write htable rfl haccounted (hkeys hkey) (hkeys hkey) ?_ ?_, hfrees⟩
      · intro hc
        rcases List.mem_append.mp hc with hc | hc
        · exact hliteral.1 hc
        · cases List.mem_singleton.mp hc
      · intro hnone
        have hsome := key_of_hasKey hkey
        rw [show t.key = none from hnone] at hsome
        cases hsome
  | @created key value n before after t htable hempty hmiss =>
      have ht : t ∈ table.tuples := by
        rw [htable]
        exact List.mem_append_right _ (List.mem_cons_self ..)
      obtain ⟨haccounted, hfrees⟩ := accounted_create h.accounted htable (h.empty t ht hempty) key value n rfl
      have hnew : (create key value n table.heap).1.hasKey key = true := by
        show (key == key) = true
        exact beq_self_eq_true key
      refine ⟨h.write htable rfl haccounted ?_ (hkeys hnew) ?_ ?_, hfrees⟩
      · intro uri _
        rw [Tuple.hasKey, hempty]
        rfl
      · intro hc
        simp [create, Heap.malloc, Heap.memcpy, Heap.copyTo, Tuple.pointers] at hc
      · intro hnone
        cases hnone
  | full hmiss hfull => exact ⟨h, freesLive_refl h.accounted⟩
  | @deleted key before after t htable hkey =>
      have ht : t ∈ table.tuples := by
        rw [htable]
        exact List.mem_append_right _ (List.mem_cons_self ..)
      obtain ⟨haccounted, hfrees⟩ :=
        accounted_delete h.accounted htable (h.other t ht (hkeys hkey)) rfl
      refine ⟨h.write htable rfl haccounted (hkeys hkey) (fun _ _ => rfl) List.not_mem_nil fun _ => rfl, hfrees⟩
  | missing hmiss => exact ⟨h, freesLive_refl h.accounted⟩

/-- A literal that was freed is not live. -/
theorem not_freesLive {before after : Table} (hbefore : .literal ∉ before.heap.freed)
    (hafter : .literal ∈ after.heap.freed) : ¬ FreesLive before after := by
  rintro ⟨⟨ptrs, hlog, -, hlive⟩, -⟩
  rw [hlog, List.mem_append] at hafter
  rcases hafter with hptr | hold
  · obtain ⟨serial, -, hc⟩ := (hlive _ hptr).1
    cases hc
  · exact hbefore hold

/-- **A call for an initial key** frees a literal. -/
theorem call_initial {table : Table} (h : table.Untouched) {op : Op} (hop : op.key ∈ initialUris) :
    ¬ FreesLive table (op.call table).2 := by
  have hcalled := call_cases op table
  have hthere := h.there op.key hop
  generalize op.call table = result at hcalled ⊢
  cases hcalled with
  | @overwritten key value n before after t htable hkey =>
      have hvalue := h.initial t (by rw [htable]; exact List.mem_append_right _ (List.mem_cons_self ..)) key hop hkey
      refine not_freesLive h.accounted.freed ?_
      show Origin.literal ∈ (table.heap.free _).freed
      rw [free_freed, hvalue]
      exact List.mem_cons_self ..
  | created htable hempty hmiss => exact absurd hthere hmiss
  | full hmiss hfull => exact absurd hthere hmiss
  | @deleted key before after t htable hkey =>
      have hvalue := h.initial t (by rw [htable]; exact List.mem_append_right _ (List.mem_cons_self ..)) key hop hkey
      refine not_freesLive h.accounted.freed ?_
      show Origin.literal ∈ (Heap.free _ _).freed
      rw [free_freed, hvalue]
      exact List.mem_cons_self ..
  | missing hmiss => exact absurd hthere hmiss

/-! ### Any requests -/

/-- The request writes to none of the tuples of the initialiser. -/
def Request.SparesInitial (request : Request) : Prop :=
  request.isPut ∨ request.isDelete → request.target ∉ initialUris

theorem sparesInitial_iff (request : Request) :
    request.SparesInitial ↔ ∀ op ∈ request.op, op.key ∉ initialUris := by
  unfold Request.SparesInitial Request.op
  by_cases hput : request.isPut
  · simp [hput, Op.key]
  · by_cases hdelete : request.isDelete
    · simp [hput, hdelete, Op.key]
    · simp [hput, hdelete]

theorem served_cases {table : Table} (h : table.Untouched) (request : Request) :
    (FreesLive table (table.served request) ↔ request.SparesInitial) ∧
      (request.SparesInitial → (table.served request).Untouched) := by
  rw [sparesInitial_iff]
  unfold Table.served
  cases request.op with
  | none => exact ⟨iff_of_true (freesLive_refl h.accounted) fun op hop => (by cases hop), fun _ => h⟩
  | some op =>
      have hall : (∀ o ∈ some op, o.key ∉ initialUris) ↔ op.key ∉ initialUris := by simp
      rw [hall]
      refine ⟨⟨fun hfrees hop => call_initial h hop hfrees, fun hop => (call_untouched h hop).2⟩, ?_⟩
      exact fun hop => (call_untouched h hop).1

/-- The table goes from request to request. -/
def serve (table : Table) (request : Request) : Option Table := some (table.served request)

/-- **When only heap blocks are freed**: in the runs that neither PUT nor DELETE what the table
was initialised with. -/
theorem frees_live_iff (requests : List Request) :
    Along serve (fun table request => FreesLive table (table.served request)) initialResources requests
      ↔ ∀ request ∈ requests, request.SparesInitial :=
  along_iff_forall (fun _ _ => rfl) (fun _ request h => (served_cases h request).2)
    (fun _ request h => (served_cases h request).1) requests untouched_initial

/-- The first DELETE of `/static/foo` frees two string literals. -/
theorem delete_frees_literals :
    (initialResources.served ⟨some (ascii "DELETE"), some (ascii "/static/foo"), [], [], 0⟩).heap.freed
        = [.literal, .literal] ∧
      ¬ Along serve (fun table request => FreesLive table (table.served request)) initialResources
        [⟨some (ascii "DELETE"), some (ascii "/static/foo"), [], [], 0⟩] := by
  have hfreed : (initialResources.served
      ⟨some (ascii "DELETE"), some (ascii "/static/foo"), [], [], 0⟩).heap.freed = [.literal, .literal] := by
    decide +kernel
  refine ⟨hfreed, ?_⟩
  rintro ⟨hfirst, -⟩
  refine not_freesLive (by decide) ?_ hfirst
  rw [hfreed]
  exact List.mem_cons_self ..

end ChordDht.Chord
