/-
Overwriting a key against deleting and creating it.

The two branches of `set` copy the value by different rules.  The one that creates a tuple
copies as many bytes as were announced; the one that overwrites copies up to the first zero
byte, wherever that is, into a block of the announced size.  The two agree on the values
whose only zero byte is the last, and what stands behind the value does not matter.
-/
import ChordDht.Chord.Store

namespace ChordDht.Chord

/-- What a lookup shows: the bytes at the pointer, and how many there are. -/
def seen (key : Bytes) (tuples : List Tuple) : Option (List Cell × Nat) :=
  (get key tuples).map fun p => (p.1.cells, p.2)

/-- The table after `set` with the value, which has other bytes behind it. -/
def setTable (key value rest : Bytes) (table : Table) : Table :=
  (set key (value ++ rest) value.length table).2

/-- The overwriting `set` frees and writes only what is its own, a lookup of the key gives the
value, and all lookups are those after `delete` and `set`. -/
structure AsCreated (key value rest : Bytes) (table : Table) : Prop where
  owned : (setTable key value rest table).heap.badFree = false
  inside : (setTable key value rest table).heap.stray = table.heap.stray
  read : seen key (setTable key value rest table).tuples = some (value.map some, value.length)
  same : ∀ key', seen key' (setTable key value rest table).tuples
    = seen key' (setTable key value rest (delete key table).2).tuples

/-- There is room for the key where it was deleted. -/
theorem hasRoom_delete {key : Bytes} {table : Table} (h : find key table.tuples ≠ none) :
    HasRoom key (delete key table).2.tuples := by
  obtain ⟨i, hi⟩ := Option.ne_none_iff_exists'.mp h
  obtain ⟨htuple, -⟩ := find_tuple hi
  obtain ⟨hlt, -⟩ := List.getElem?_eq_some_iff.mp htuple
  refine Or.inr ?_
  rw [delete, hi, Ne, List.findIdx?_eq_none_iff]
  intro hnone
  have hmiss := hnone hole (List.mem_set hlt hole)
  exact absurd hmiss (by decide)

/-- A value whose only zero byte is its last is copied whole by both branches. -/
theorem seen_set_terminated {key s rest : Bytes} {table : Table} (hs : (0 : UInt8) ∉ s)
    (hroom : HasRoom key table.tuples) :
    seen key (setTable key (s ++ [0]) rest table).tuples
      = some ((s ++ [0]).map some, (s ++ [0]).length) := by
  have hcstr : cstr (s ++ [0] ++ rest) = s := by
    rw [List.append_assoc]
    exact cstr_append_zero hs rest
  have hcopied : copied key (s ++ [0] ++ rest) (s ++ [0]).length table.tuples = s ++ [0] := by
    unfold copied
    rw [hcstr, List.take_left]
    exact ite_self _
  obtain ⟨block, hget, hcells⟩ := set_get (s ++ [0] ++ rest) (s ++ [0]).length hroom
  rw [seen, setTable, hget, Option.map_some, hcells, hcopied,
    storeCells_exact (by rw [List.length_replicate])]

/-- **Overwriting is creating** for the values whose only zero byte is the last. -/
theorem asCreated_iff {key : Bytes} {table : Table} (hthere : find key table.tuples ≠ none)
    (hfree : table.heap.badFree = false) (howned : TupleOwned key table.tuples) (value rest : Bytes) :
    AsCreated key value rest table ↔ ∃ s, (0 : UInt8) ∉ s ∧ value = s ++ [0] := by
  have hroom : HasRoom key table.tuples := Or.inl hthere
  have hvalue : ValueOwned key table.tuples := fun i hi => (howned i hi).2
  constructor
  · rintro ⟨-, hinside, hseen, -⟩
    obtain ⟨block, hget, hcells⟩ := set_get (value ++ rest) value.length hroom
    rw [setTable, set_stray _ _ hthere] at hinside
    rw [seen, setTable, hget, Option.map_some, Option.some.injEq, Prod.mk.injEq] at hseen
    have hcopied : copied key (value ++ rest) value.length table.tuples
        = cstr (value ++ rest) ++ [0] := if_pos (Option.isSome_iff_ne_none.mpr hthere)
    refine ⟨cstr (value ++ rest), zero_notMem_cstr _, ?_⟩
    -- what was copied has room, and nothing is known of the cells behind it
    have hfits : ((cstr (value ++ rest) ++ [0]).map some).length ≤ value.length := by
      rw [List.length_map, List.length_append, List.length_singleton]
      omega
    have hbytes := hcells.symm.trans hseen.1
    rw [hcopied, storeCells, List.length_replicate, List.take_of_length_le hfits, List.drop_replicate]
      at hbytes
    have hfull : value.length - (cstr (value ++ rest) ++ [0]).length = 0 := by
      by_contra hshort
      have hunknown : none ∈ value.map some := by
        rw [← hbytes]
        exact List.mem_append_right _ (List.mem_replicate.mpr ⟨hshort, rfl⟩)
      simp at hunknown
    rw [hfull, List.replicate_zero, List.append_nil] at hbytes
    exact (List.map_injective_iff.mpr (Option.some_injective _) hbytes).symm
  · rintro ⟨s, hs, rfl⟩
    refine ⟨?_, ?_, seen_set_terminated hs hroom, ?_⟩
    · exact (set_badFree_iff _ _ table).mpr ⟨hfree, hvalue⟩
    · rw [setTable, set_stray _ _ hthere, List.append_assoc, List.singleton_append, cstr_append_zero hs]
      simp
    · intro key'
      by_cases hkey : key = key'
      · subst hkey
        rw [seen_set_terminated hs hroom, seen_set_terminated hs (hasRoom_delete hthere)]
      · unfold seen setTable
        rw [set_get_other _ _ _ hkey, set_get_other _ _ _ hkey, delete_get_other _ hkey]

/-- A table that has a value under `k`. -/
def oneKey : Table := (set (ascii "k") (ascii "old") 3 ⟨[hole, hole], ⟨0, [], 0⟩⟩).2

theorem asCreated_terminated : AsCreated (ascii "k") (ascii "new" ++ [0]) (ascii "GET") oneKey :=
  (asCreated_iff (by decide +kernel) (by decide +kernel) (by decide +kernel) _ _).mpr
    ⟨ascii "new", by decide, rfl⟩

/-- A value without a zero byte, in front of the next request: its bytes are followed into it. -/
theorem overwrite_runs_on : find (ascii "k") oneKey.tuples ≠ none ∧ oneKey.heap.badFree = false ∧
    TupleOwned (ascii "k") oneKey.tuples ∧
    (setTable (ascii "k") (ascii "new") (ascii "GET") oneKey).heap.stray = 4 ∧
    ¬ AsCreated (ascii "k") (ascii "new") (ascii "GET") oneKey := by
  have hstray : (setTable (ascii "k") (ascii "new") (ascii "GET") oneKey).heap.stray = 4 := by decide +kernel
  refine ⟨by decide +kernel, by decide +kernel, by decide +kernel, hstray, ?_⟩
  intro h
  have hinside := h.inside
  rw [hstray] at hinside
  exact absurd hinside (by decide +kernel)

end ChordDht.Chord
