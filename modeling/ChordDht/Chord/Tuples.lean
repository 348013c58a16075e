/-
The tuples of the store, slot by slot.

A call of `set` or `delete` writes one slot at most: the one that holds its key, or an
empty one if there is no such slot.  `call_cases` says this once for both.  From it follows
that a table in which no key is in two tuples stays one, wherever the empty slots are, and
that a call leaves all tuples with other keys alone: their slots always, and what their
pointers point to as long as the copy of an overwriting `set` ends in the block it was given.
`calls_local_iff` says for which runs of calls that is so.
-/
import ChordDht.Lib.Trace
import ChordDht.Chord.Store

namespace ChordDht.Chord

open Slots Trace

/-- The keys that are in the tuples, in the order of the slots. -/
def keys (tuples : List Tuple) : List Bytes := tuples.filterMap fun t => t.key.map (·.text)

/-- No key is in two tuples. -/
def Distinct (tuples : List Tuple) : Prop := (keys tuples).Nodup

instance (tuples : List Tuple) : Decidable (Distinct tuples) := by
  unfold Distinct; infer_instance

/-- A call that writes to the table. -/
inductive Op where
  | set (key value : Bytes) (valueLength : Nat)
  | delete (key : Bytes)
  deriving DecidableEq, Repr

def Op.key : Op → Bytes
  | .set key _ _ => key
  | .delete key => key

def Op.call : Op → Table → Bool × Table
  | .set key value valueLength, table => Chord.set key value valueLength table
  | .delete key, table => Chord.delete key table

/-- The table after a call, if that has done no damage to memory. -/
def callStep (table : Table) (op : Op) : Option Table :=
  if table.heap.damaged (op.call table).2.heap then none else some (op.call table).2

/-! ### Keys -/

theorem keys_between (before after : List Tuple) (t : Tuple) :
    keys (before ++ t :: after) = keys before ++ ((t.key.map (·.text)).toList ++ keys after) := by
  unfold keys
  rw [List.filterMap_append, List.filterMap_cons]
  cases t.key <;> rfl

theorem key_of_hasKey {t : Tuple} {key : Bytes} (h : t.hasKey key = true) : t.key.map (·.text) = some key := by
  unfold Tuple.hasKey at h
  cases hk : t.key with
  | none =>
      rw [hk] at h
      exact Bool.noConfusion h
  | some k =>
      rw [hk] at h
      exact congrArg some (by simpa using h)

theorem mem_keys {key : Bytes} {tuples : List Tuple} :
    key ∈ keys tuples ↔ ∃ t ∈ tuples, t.hasKey key = true := by
  unfold keys Tuple.hasKey
  rw [List.mem_filterMap]
  refine exists_congr fun t => and_congr_right fun _ => ?_
  cases t.key <;> simp

/-- The search stops exactly for the keys of the table. -/
theorem find_eq_none_iff {key : Bytes} {tuples : List Tuple} : find key tuples = none ↔ key ∉ keys tuples := by
  rw [find, List.findIdx?_eq_none_iff, mem_keys]
  simp

/-! ### What a call does -/

/-- What a call comes to, and where in the table. -/
inductive Called (table : Table) : Op → Bool × Table → Prop
  | overwritten {key value : Bytes} {n : Nat} {before after : List Tuple} {t : Tuple}
      (htable : table.tuples = before ++ t :: after) (hkey : t.hasKey key = true) :
      Called table (.set key value n) (true, ⟨before ++ (overwrite t value n table.heap).1 :: after,
        (overwrite t value n table.heap).2⟩)
  | created {key value : Bytes} {n : Nat} {before after : List Tuple} {t : Tuple}
      (htable : table.tuples = before ++ t :: after) (hempty : t.key = none) (hmiss : key ∉ keys table.tuples) :
      Called table (.set key value n) (false, ⟨before ++ (create key value n table.heap).1 :: after,
        (create key value n table.heap).2⟩)
  | full {key value : Bytes} {n : Nat} (hmiss : key ∉ keys table.tuples)
      (hfull : ∀ t ∈ table.tuples, t.key ≠ none) : Called table (.set key value n) (false, table)
  | deleted {key : Bytes} {before after : List Tuple} {t : Tuple}
      (htable : table.tuples = before ++ t :: after) (hkey : t.hasKey key = true) :
      Called table (.delete key) (true, ⟨before ++ hole :: after,
        (table.heap.free (t.key.map (·.origin))).free (t.value.map (·.origin))⟩)
  | missing {key : Bytes} (hmiss : key ∉ keys table.tuples) : Called table (.delete key) (false, table)

theorem set_called (key value : Bytes) (n : Nat) (table : Table) :
    Called table (.set key value n) (set key value n table) := by
  unfold set
  cases hf : find key table.tuples with
  | some i =>
      obtain ⟨htuple, hkey⟩ := find_tuple hf
      obtain ⟨before, after, htable, rfl⟩ := between_of_getElem? htuple
      show Called table _ (true, ⟨table.tuples.set before.length (overwrite _ value n table.heap).1,
        (overwrite _ value n table.heap).2⟩)
      generalize table.tuples.getD before.length hole = t at *
      rw [htable, set_between]
      exact .overwritten htable hkey
  | none =>
      have hmiss := find_eq_none_iff.mp hf
      cases hi : table.tuples.findIdx? (·.key.isNone) with
      | none =>
          refine .full hmiss ?_
          intro t ht hnone
          have hsome := List.findIdx?_eq_none_iff.mp hi t ht
          rw [hnone] at hsome
          exact Bool.noConfusion hsome
      | some i =>
          obtain ⟨t, ht, hnone, -⟩ := findIdx?_spec hi
          obtain ⟨before, after, htable, rfl⟩ := between_of_getElem? ht
          show Called table _ (false, ⟨table.tuples.set before.length (create key value n table.heap).1,
            (create key value n table.heap).2⟩)
          rw [htable, set_between]
          exact .created htable (Option.isNone_iff_eq_none.mp hnone) hmiss

theorem delete_called (key : Bytes) (table : Table) : Called table (.delete key) (delete key table) := by
  unfold delete
  cases hf : find key table.tuples with
  | some i =>
      obtain ⟨htuple, hkey⟩ := find_tuple hf
      obtain ⟨before, after, htable, rfl⟩ := between_of_getElem? htuple
      generalize htuple' : table.tuples.getD before.length hole = t at *
      show Called table _ (true, ⟨table.tuples.set before.length hole,
        (table.heap.free ((table.tuples.getD before.length hole).key.map (·.origin))).free
          ((table.tuples.getD before.length hole).value.map (·.origin))⟩)
      rw [htuple', htable, set_between]
      exact .deleted htable hkey
  | none => exact .missing (find_eq_none_iff.mp hf)

/-- **A call writes one slot**, if any. -/
theorem call_cases (op : Op) (table : Table) : Called table op (op.call table) := by
  cases op with
  | set key value n => exact set_called key value n table
  | delete key => exact delete_called key table

/-! ### What it leaves -/

/-- **Keys stay distinct**, wherever the slot is that is filled. -/
theorem call_distinct {table : Table} (h : Distinct table.tuples) (op : Op) :
    Distinct (op.call table).2.tuples := by
  have hcalled := call_cases op table
  generalize op.call table = result at hcalled ⊢
  unfold Distinct at h ⊢
  cases hcalled with
  | overwritten htable hkey =>
      rw [htable, keys_between] at h
      rwa [keys_between]
  | @created key value n before after t htable hempty hmiss =>
      rw [htable, keys_between, hempty] at h hmiss
      have hperm : (keys before ++ ([key] ++ keys after)).Perm (key :: (keys before ++ keys after)) :=
        List.perm_middle
      rw [keys_between]
      exact hperm.nodup_iff.mpr (List.nodup_cons.mpr ⟨hmiss, h⟩)
  | full hmiss hfull => exact h
  | deleted htable hkey =>
      rw [htable, keys_between] at h
      rw [keys_between]
      refine h.sublist (List.Sublist.append_left ?_ _)
      exact List.sublist_append_right _ _
  | missing hmiss => exact h

/-- A tuple with another key is not in the slot that is written. -/
theorem getElem?_other {before after : List Tuple} {t t' u : Tuple} {i : Nat}
    (hu : (before ++ t :: after)[i]? = some u) (hne : t ≠ u) : (before ++ t' :: after)[i]? = some u := by
  by_cases hi : i = before.length
  · rw [hi, getElem?_between, Option.some.injEq] at hu
    exact absurd hu hne
  · rw [← set_between before t t' after, List.getElem?_set_ne fun hc => hi hc.symm]
    exact hu

theorem call_others {op : Op} {table : Table} {i : Nat} {u : Tuple} {k : Key} (hu : table.tuples[i]? = some u)
    (hkey : u.key = some k) (hne : k.text ≠ op.key) : (op.call table).2.tuples[i]? = some u := by
  have hcalled := call_cases op table
  have hother : u.hasKey op.key = false := by
    rw [Tuple.hasKey, hkey]
    simpa using hne
  generalize op.call table = result at hcalled ⊢
  cases hcalled with
  | overwritten htable hhas =>
      rw [htable] at hu
      refine getElem?_other hu ?_
      rintro rfl
      exact Bool.noConfusion (hhas.symm.trans hother)
  | created htable hempty hmiss =>
      rw [htable] at hu
      refine getElem?_other hu ?_
      rintro rfl
      rw [hempty] at hkey
      exact absurd hkey (Option.some_ne_none k).symm
  | full hmiss hfull => exact hu
  | deleted htable hhas =>
      rw [htable] at hu
      refine getElem?_other hu ?_
      rintro rfl
      exact Bool.noConfusion (hhas.symm.trans hother)
  | missing hmiss => exact hu

theorem mem_keys_between {before after : List Tuple} {t : Tuple} {key : Bytes} (h : t.hasKey key = true) :
    key ∈ keys (before ++ t :: after) := by
  rw [mem_keys]
  exact ⟨t, List.mem_append_right _ (List.mem_cons_self ..), h⟩

/-- **What a call returns** says whether its key was there. -/
theorem call_result (op : Op) (table : Table) : (op.call table).1 = true ↔ op.key ∈ keys table.tuples := by
  have hcalled := call_cases op table
  generalize op.call table = result at hcalled ⊢
  cases hcalled with
  | overwritten htable hkey =>
      rw [htable]
      exact iff_of_true rfl (mem_keys_between hkey)
  | created htable hempty hmiss => exact iff_of_false Bool.false_ne_true hmiss
  | full hmiss hfull => exact iff_of_false Bool.false_ne_true hmiss
  | deleted htable hkey =>
      rw [htable]
      exact iff_of_true rfl (mem_keys_between hkey)
  | missing hmiss => exact iff_of_false Bool.false_ne_true hmiss

/-- A key that is deleted is in no other tuple. -/
theorem delete_get_self {table : Table} (h : Distinct table.tuples) (key : Bytes) :
    get key (delete key table).2.tuples = none := by
  have hmissing : key ∉ keys (delete key table).2.tuples := by
    have hcalled := delete_called key table
    unfold Distinct at h
    generalize delete key table = result at hcalled ⊢
    cases hcalled with
    | deleted htable hkey =>
        rw [htable, keys_between, key_of_hasKey hkey] at h
        have hperm := (@List.perm_middle _ key _ _).nodup_iff.mp h
        rw [keys_between]
        exact (List.nodup_cons.mp hperm).1
    | missing hmiss => exact hmiss
  rw [get, find_eq_none_iff.mpr hmissing]
  rfl

/-! ### All calls -/

/-- What a call should do to a table, by what is in it. -/
structure Op.Local (op : Op) (table : Table) : Prop where
  /-- Keys stay distinct. -/
  distinct : Distinct (op.call table).2.tuples
  /-- No block is written but its own, and none freed that is not from `malloc`. -/
  intact : table.heap.damaged (op.call table).2.heap = false
  /-- The slots of the other keys are as they were. -/
  others : ∀ (i : Nat) (t : Tuple) (k : Key), table.tuples[i]? = some t → t.key = some k → k.text ≠ op.key →
    (op.call table).2.tuples[i]? = some t
  /-- It is said whether the key was there. -/
  result : (op.call table).1 = true ↔ op.key ∈ keys table.tuples
  /-- A new key is stored if there is an empty slot. -/
  stored : ∀ value n, op = .set op.key value n → op.key ∉ keys table.tuples →
    (∃ t ∈ table.tuples, t.key = none) → ∃ block, get op.key (op.call table).2.tuples = some (block, n) ∧
      (n ≤ value.length → block.cells = (value.take n).map some)
  /-- Without one nothing changes. -/
  full : ∀ value n, op = .set op.key value n → op.key ∉ keys table.tuples →
    (∀ t ∈ table.tuples, t.key ≠ none) → (op.call table).2 = table
  /-- A key that is deleted is gone. -/
  deleted : op = .delete op.key → get op.key (op.call table).2.tuples = none

/-- The call stays with blocks of the table: if its key is there, none of them is a string literal,
and the C string at the value that `set` copies ends within the value. -/
def Op.Contained : Op → Table → Prop
  | .set key value n, table => SetContained key value n table.tuples
  | .delete key, table => TupleOwned key table.tuples

instance (op : Op) (table : Table) : Decidable (op.Contained table) := by
  cases op <;> (unfold Op.Contained; infer_instance)

theorem set_stored_new {table : Table} {key value : Bytes} {n : Nat} (hmiss : key ∉ keys table.tuples)
    (hempty : ∃ t ∈ table.tuples, t.key = none) :
    ∃ block, get key (set key value n table).2.tuples = some (block, n) ∧
      (n ≤ value.length → block.cells = (value.take n).map some) := by
  have hroom : HasRoom key table.tuples := by
    refine Or.inr ?_
    obtain ⟨t, ht, hnone⟩ := hempty
    rw [Ne, List.findIdx?_eq_none_iff]
    intro hall
    have hsome := hall t ht
    rw [hnone] at hsome
    exact Bool.noConfusion hsome
  obtain ⟨block, hget, hcells⟩ := set_get value n hroom
  refine ⟨block, hget, ?_⟩
  intro hlen
  rw [copied, find_eq_none_iff.mpr hmiss] at hcells
  have htake : (value.take n).length = (List.replicate n (none : Cell)).length := by
    rw [List.length_replicate, List.length_take]
    omega
  rw [hcells]
  exact storeCells_exact htake

theorem set_full {table : Table} {key value : Bytes} {n : Nat} (hmiss : key ∉ keys table.tuples)
    (hfull : ∀ t ∈ table.tuples, t.key ≠ none) : (set key value n table).2 = table := by
  have hnone : table.tuples.findIdx? (·.key.isNone) = none := by
    rw [List.findIdx?_eq_none_iff]
    intro t ht
    cases hkey : t.key with
    | none => exact absurd hkey (hfull t ht)
    | some k => rfl
  unfold set
  rw [find_eq_none_iff.mpr hmiss, hnone]

/-- The slots are as they should be after any call. -/
theorem call_local {table : Table} (h : Distinct table.tuples) (op : Op)
    (hintact : table.heap.damaged (op.call table).2.heap = false) : op.Local table := by
  refine ⟨call_distinct h op, hintact, ?_, call_result op _, ?_, ?_, ?_⟩
  · intro i t k ht hkey hne
    exact call_others ht hkey hne
  · intro value n hop hmiss hempty
    rw [hop] at hmiss ⊢
    exact set_stored_new hmiss hempty
  · intro value n hop hmiss hfull
    rw [hop] at hmiss ⊢
    exact set_full hmiss hfull
  · intro hop
    rw [hop]
    exact delete_get_self h op.key

/-- **A call does no damage** exactly if it stays with blocks of the table. -/
theorem call_damaged_iff (op : Op) (table : Table) : table.heap.damaged (op.call table).2.heap = false ↔
    table.heap.badFree = false ∧ op.Contained table := by
  cases op with
  | set key value n => exact set_damaged_iff value n table
  | delete key => exact delete_damaged_iff table

theorem callStep_eq_some {table table' : Table} {op : Op} (h : callStep table op = some table') :
    table.heap.damaged (op.call table).2.heap = false ∧ (op.call table).2 = table' := by
  unfold callStep at h
  cases hdamaged : table.heap.damaged (op.call table).2.heap with
  | true =>
      rw [hdamaged] at h
      cases h
  | false =>
      rw [hdamaged] at h
      exact ⟨rfl, Option.some.inj h⟩

/-- **Keys are unique and calls are local** in exactly the runs whose calls stay with blocks of the
table: in a table of any size whose keys are distinct, whatever is called, and wherever the
empty slots are. -/
theorem calls_local_iff {table : Table} (h : Distinct table.tuples) (hfree : table.heap.badFree = false)
    (ops : List Op) :
    Along callStep (fun table op => op.Local table) table ops ↔
      Along callStep (fun table op => op.Contained table) table ops := by
  refine @along_congr _ _ callStep _ _ (fun table => Distinct table.tuples ∧ table.heap.badFree = false) ?_ ?_
    ops table ⟨h, hfree⟩
  · rintro table op ⟨hdistinct, hfree⟩
    constructor
    · intro hlocal
      exact ((call_damaged_iff op table).mp hlocal.intact).2
    · intro hcontained
      exact call_local hdistinct op ((call_damaged_iff op table).mpr ⟨hfree, hcontained⟩)
  · rintro table op table' ⟨hdistinct, -⟩ - hstep
    obtain ⟨hsound, rfl⟩ := callStep_eq_some hstep
    exact ⟨call_distinct hdistinct op, (damaged_eq_false_iff.mp hsound).1⟩

/-- Two empty slots. -/
def twoHoles : Table := ⟨[hole, hole], ⟨0, [], 0⟩⟩

/-- A key is put behind another one, which is deleted, and then it is put again, with a value that
ends with a zero byte. -/
theorem calls_local_holes : Along callStep (fun table op => op.Local table) twoHoles
    [.set (ascii "a") (ascii "1") 1, .set (ascii "b") (ascii "2") 1, .delete (ascii "a"),
      .set (ascii "b") (ascii "3" ++ [0]) 2] :=
  (calls_local_iff (by decide) (by decide) _).mpr (by decide +kernel)

/-- Two keys are there; a new value for the first, of three bytes, has other bytes behind it. -/
theorem set_writes_outside : ∃ table, run callStep twoHoles
      [.set (ascii "a") (ascii "old") 3, .set (ascii "b") (ascii "2") 1] = some table ∧
    Distinct table.tuples ∧ table.heap.badFree = false ∧
    ¬ Op.Local (.set (ascii "a") (ascii "newGET") 3) table := by
  have hrun : ((run callStep twoHoles [.set (ascii "a") (ascii "old") 3, .set (ascii "b") (ascii "2") 1]).map
      fun table => (decide (Distinct table.tuples), table.heap.badFree,
        table.heap.damaged ((Op.set (ascii "a") (ascii "newGET") 3).call table).2.heap))
      = some (true, false, true) := by decide +kernel
  obtain ⟨table, htable, hvalues⟩ := Option.map_eq_some_iff.mp hrun
  simp only [Prod.mk.injEq] at hvalues
  refine ⟨table, htable, of_decide_eq_true hvalues.1, hvalues.2.1, ?_⟩
  intro hlocal
  rw [hlocal.intact] at hvalues
  exact Bool.noConfusion hvalues.2.2

end ChordDht.Chord
