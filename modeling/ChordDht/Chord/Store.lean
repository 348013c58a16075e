/-
What the calls of the store do to what it answers.

Each call changes one slot.  A lookup of any other key is as before; after `set` that
found the key or an empty slot, a lookup of the key gives a block of the length that
was announced.  A call that neither finds the key nor an empty slot changes nothing,
and returns what a call that created a tuple returns.
-/
import ChordDht.Lib.Slots
import ChordDht.Chord.Data

namespace ChordDht.Chord

open Slots

/-- The key has a value of this length. -/
def Stored (key : Bytes) (length : Nat) (tuples : List Tuple) : Prop :=
  ∃ block, get key tuples = some (block, length) ∧ block.cells.length = length

/-- No string literal is in the value of the tuple that `set` would overwrite. -/
def ValueOwned (key : Bytes) (tuples : List Tuple) : Prop :=
  ∀ i ∈ find key tuples, (tuples.getD i hole).value.map (·.origin) ≠ some .literal

/-- No string literal is in the tuple that holds the key. -/
def TupleOwned (key : Bytes) (tuples : List Tuple) : Prop :=
  ∀ i ∈ find key tuples, (tuples.getD i hole).key.map (·.origin) ≠ some .literal ∧
    (tuples.getD i hole).value.map (·.origin) ≠ some .literal

/-- `set` of this key has a tuple to write to. -/
def HasRoom (key : Bytes) (tuples : List Tuple) : Prop :=
  find key tuples ≠ none ∨ tuples.findIdx? (·.key.isNone) ≠ none

/-- `set` of this key stays with blocks of the table: it overwrites no string literal, and the
C string at the value, which an overwriting `set` copies, ends within the value. -/
def SetContained (key value : Bytes) (n : Nat) (tuples : List Tuple) : Prop :=
  ValueOwned key tuples ∧ (find key tuples ≠ none → (cstr value).length < n)

instance (key : Bytes) (tuples : List Tuple) : Decidable (ValueOwned key tuples) := by
  unfold ValueOwned; infer_instance

instance (key value : Bytes) (n : Nat) (tuples : List Tuple) : Decidable (SetContained key value n tuples) := by
  unfold SetContained; infer_instance

instance (key : Bytes) (tuples : List Tuple) : Decidable (TupleOwned key tuples) := by
  unfold TupleOwned; infer_instance

instance (key : Bytes) (tuples : List Tuple) : Decidable (HasRoom key tuples) := by
  unfold HasRoom; infer_instance

/-! ### Blocks -/

theorem storeCells_length (cells : List Cell) (s : Bytes) : (storeCells cells s).length = cells.length := by
  simp only [storeCells, List.length_append, List.length_take, List.length_map, List.length_drop]
  omega

/-- As much as fits a block, and no more, fills it. -/
theorem storeCells_exact {cells : List Cell} {s : Bytes} (h : s.length = cells.length) :
    storeCells cells s = s.map some := by
  rw [storeCells, List.take_of_length_le (by rw [List.length_map]; omega), List.drop_eq_nil_of_le (by omega),
    List.append_nil]

theorem free_freed (heap : Heap) (ptr : Option Origin) : (heap.free ptr).freed = ptr.toList ++ heap.freed := by
  cases ptr <;> rfl

theorem free_serial (heap : Heap) (ptr : Option Origin) : (heap.free ptr).serial = heap.serial := by
  cases ptr <;> rfl

theorem overwrite_block (tuple : Tuple) (value : Bytes) (n : Nat) (heap : Heap) :
    ∃ block, (overwrite tuple value n heap).1 = { tuple with value := some block, valueLength := n } ∧
      block.cells = storeCells (List.replicate n none) (cstr value ++ [0]) :=
  ⟨_, rfl, rfl⟩

theorem create_block (key value : Bytes) (n : Nat) (heap : Heap) :
    ∃ origin block, (create key value n heap).1 = ⟨some ⟨origin, key⟩, some block, n⟩ ∧
      block.cells = storeCells (List.replicate n none) (value.take n) :=
  ⟨_, _, rfl, rfl⟩

/-! ### What is freed -/

theorem badFree_free (heap : Heap) (ptr : Option Origin) :
    (heap.free ptr).badFree = (heap.badFree || decide (ptr = some .literal)) := by
  cases ptr with
  | none => simp [Heap.free]
  | some origin => cases origin <;> simp [Heap.free, Heap.badFree]

theorem badFree_overwrite (tuple : Tuple) (value : Bytes) (n : Nat) (heap : Heap) :
    (overwrite tuple value n heap).2.badFree =
      (heap.badFree || decide (tuple.value.map (·.origin) = some .literal)) :=
  badFree_free heap _

theorem badFree_create (key value : Bytes) (n : Nat) (heap : Heap) :
    (create key value n heap).2.badFree = heap.badFree := rfl

/-! ### What is written past the end -/

theorem stray_free (heap : Heap) (ptr : Option Origin) : (heap.free ptr).stray = heap.stray := by
  cases ptr <;> rfl

theorem stray_overwrite (tuple : Tuple) (value : Bytes) (n : Nat) (heap : Heap) :
    (overwrite tuple value n heap).2.stray = heap.stray + ((cstr value).length + 1 - n) := by
  show (heap.free (tuple.value.map (·.origin))).stray
    + ((cstr value ++ [0]).length - (List.replicate n (none : Cell)).length) = _
  rw [stray_free, List.length_append, List.length_singleton, List.length_replicate]

theorem stray_create (key value : Bytes) (n : Nat) (heap : Heap) :
    (create key value n heap).2.stray = heap.stray := by
  have hle : (value.take n).length - (List.replicate n (none : Cell)).length = 0 := by
    rw [List.length_take, List.length_replicate]
    omega
  show heap.stray + ((value.take n).length - (List.replicate n (none : Cell)).length) = _
  rw [hle, Nat.add_zero]

theorem damaged_eq_false_iff {before after : Heap} :
    before.damaged after = false ↔ after.badFree = false ∧ after.stray ≤ before.stray := by
  rw [Heap.damaged, Bool.or_eq_false_iff, decide_eq_false_iff_not, Nat.not_lt]

/-! ### Lookups after a call -/

/-- Lookups of a key do not see a slot that holds other keys before and after. -/
theorem get_set_other {key : Bytes} {tuples : List Tuple} {i : Nat} {tuple : Tuple}
    (hold : ∀ t, tuples[i]? = some t → t.hasKey key = false) (hnew : tuple.hasKey key = false) :
    get key (tuples.set i tuple) = get key tuples := by
  have hfind : find key (tuples.set i tuple) = find key tuples := findIdx?_set_of_false hold hnew
  unfold get
  rw [hfind]
  cases hf : find key tuples with
  | none => rfl
  | some j =>
      have hne : i ≠ j := by
        intro hij
        obtain ⟨t, ht, hkey, -⟩ := findIdx?_spec hf
        rw [hold t (by rw [hij]; exact ht)] at hkey
        exact Bool.noConfusion hkey
      show ((tuples.set i tuple)[j]?).bind _ = (tuples[j]?).bind _
      rw [List.getElem?_set_ne hne]

/-- A key written where the search stops is found there. -/
theorem get_set_self {key : Bytes} {tuples : List Tuple} {i : Nat} {tuple : Tuple} {block : Block}
    {n : Nat} (hi : i < tuples.length) (hkey : tuple.hasKey key = true)
    (hbefore : ∀ j t, j < i → tuples[j]? = some t → t.hasKey key = false)
    (hvalue : tuple.value = some block) (hlength : tuple.valueLength = n) :
    get key (tuples.set i tuple) = some (block, n) := by
  have hfind : find key (tuples.set i tuple) = some i := findIdx?_set_of_true hi hkey hbefore
  unfold get
  rw [hfind]
  show ((tuples.set i tuple)[i]?).bind _ = _
  rw [List.getElem?_set_self hi, Option.bind_some, hvalue, hlength]
  rfl

theorem hasKey_other {t : Tuple} {key key' : Bytes} (h : t.hasKey key = true) (hne : key ≠ key') :
    t.hasKey key' = false := by
  unfold Tuple.hasKey at h ⊢
  cases hk : t.key with
  | none => rfl
  | some k =>
      rw [hk] at h
      have hkey : k.text = key := by simpa using h
      simp [hkey, hne]

theorem hasKey_hole (key : Bytes) : hole.hasKey key = false := rfl

/-- The tuple that a search stops at. -/
theorem find_tuple {key : Bytes} {tuples : List Tuple} {i : Nat} (h : find key tuples = some i) :
    tuples[i]? = some (tuples.getD i hole) ∧ (tuples.getD i hole).hasKey key = true := by
  obtain ⟨t, ht, hkey, -⟩ := findIdx?_spec h
  have htuple : tuples.getD i hole = t := by
    rw [List.getD_eq_getElem?_getD, ht]
    rfl
  rw [htuple]
  exact ⟨ht, hkey⟩

/-- What `set` copies into the block it allocates: the C string at the value and its zero byte
where the key is there, and else as many bytes as were announced. -/
def copied (key value : Bytes) (n : Nat) (tuples : List Tuple) : Bytes :=
  if (find key tuples).isSome then cstr value ++ [0] else value.take n

section Set

variable {key : Bytes} (value : Bytes) (n : Nat)

/-- **`set` with room** answers a lookup of the key with what it copied. -/
theorem set_get {table : Table} (h : HasRoom key table.tuples) :
    ∃ block, get key (set key value n table).2.tuples = some (block, n) ∧
      block.cells = storeCells (List.replicate n none) (copied key value n table.tuples) := by
  unfold set copied
  cases hf : find key table.tuples with
  | some i =>
      obtain ⟨t, ht, hkey, hbefore⟩ := findIdx?_spec hf
      obtain ⟨htuple, hkey'⟩ := find_tuple hf
      obtain ⟨block, hblock, hcells⟩ :=
        overwrite_block (table.tuples.getD i hole) value n table.heap
      refine ⟨block, ?_, hcells⟩
      show get key (table.tuples.set i (overwrite _ value n table.heap).1) = _
      rw [hblock]
      exact get_set_self (findIdx?_lt hf) hkey' hbefore rfl rfl
  | none =>
      rcases h with h | h
      · exact absurd hf h
      · obtain ⟨i, hi⟩ := Option.ne_none_iff_exists'.mp h
        obtain ⟨origin, block, hblock, hcells⟩ := create_block key value n table.heap
        refine ⟨block, ?_, hcells⟩
        rw [hi]
        show get key (table.tuples.set i (create key value n table.heap).1) = _
        rw [hblock]
        refine get_set_self (findIdx?_lt hi) ?_ ?_ rfl rfl
        · simp [Tuple.hasKey]
        · intro j t _ ht
          exact findIdx?_none hf ht

/-- It is a value of the announced length. -/
theorem set_stored {table : Table} (h : HasRoom key table.tuples) :
    Stored key n (set key value n table).2.tuples := by
  obtain ⟨block, hget, hcells⟩ := set_get value n h
  refine ⟨block, hget, ?_⟩
  rw [hcells, storeCells_length, List.length_replicate]

/-- What an overwriting `set` writes past the end of its block. -/
theorem set_stray {table : Table} (h : find key table.tuples ≠ none) :
    (set key value n table).2.heap.stray = table.heap.stray + ((cstr value).length + 1 - n) := by
  obtain ⟨i, hi⟩ := Option.ne_none_iff_exists'.mp h
  unfold set
  rw [hi]
  exact stray_overwrite _ value n table.heap

/-- `set` leaves the lookups of other keys alone. -/
theorem set_get_other (table : Table) {key' : Bytes} (hne : key ≠ key') :
    get key' (set key value n table).2.tuples = get key' table.tuples := by
  unfold set
  cases hf : find key table.tuples with
  | some i =>
      obtain ⟨htuple, hkey⟩ := find_tuple hf
      obtain ⟨block, hblock, -⟩ := overwrite_block (table.tuples.getD i hole) value n table.heap
      show get key' (table.tuples.set i (overwrite _ value n table.heap).1) = _
      rw [hblock]
      refine get_set_other ?_ (hasKey_other hkey hne)
      intro t ht
      rw [htuple] at ht
      rw [← Option.some.inj ht]
      exact hasKey_other hkey hne
  | none =>
      cases hi : table.tuples.findIdx? (·.key.isNone) with
      | none => rfl
      | some i =>
          obtain ⟨t, ht, hnone, -⟩ := findIdx?_spec hi
          obtain ⟨origin, block, hblock, -⟩ := create_block key value n table.heap
          show get key' (table.tuples.set i (create key value n table.heap).1) = _
          rw [hblock]
          refine get_set_other ?_ ?_
          · intro t' ht'
            rw [ht] at ht'
            rw [← Option.some.inj ht', Tuple.hasKey, Option.isNone_iff_eq_none.mp hnone]
            rfl
          · simp [Tuple.hasKey, hne]

/-- `set` frees a literal exactly where it overwrites one. -/
theorem set_badFree_iff (table : Table) :
    (set key value n table).2.heap.badFree = false ↔
      table.heap.badFree = false ∧ ValueOwned key table.tuples := by
  unfold set ValueOwned
  cases hf : find key table.tuples with
  | some i =>
      show (overwrite _ value n table.heap).2.badFree = false ↔ _
      rw [badFree_overwrite, Bool.or_eq_false_iff, decide_eq_false_iff_not]
      simp
  | none =>
      cases table.tuples.findIdx? (·.key.isNone) with
      | none => simp
      | some i =>
          show (create key value n table.heap).2.badFree = false ↔ _
          rw [badFree_create]
          simp

/-- **`set` damages the heap** exactly where it overwrites a literal or writes past its block. -/
theorem set_damaged_iff (table : Table) : table.heap.damaged (set key value n table).2.heap = false ↔
    table.heap.badFree = false ∧ SetContained key value n table.tuples := by
  rw [damaged_eq_false_iff, set_badFree_iff, SetContained, and_assoc]
  refine and_congr_right fun _ => and_congr_right fun _ => ?_
  by_cases hf : find key table.tuples = none
  · have hsame : (set key value n table).2.heap.stray = table.heap.stray := by
      unfold set
      rw [hf]
      cases table.tuples.findIdx? (·.key.isNone) with
      | none => rfl
      | some i => exact stray_create key value n table.heap
    rw [hsame]
    exact iff_of_true (Nat.le_refl _) fun hc => absurd hf hc
  · rw [set_stray value n hf, imp_iff_right hf]
    omega

end Set

section Delete

variable {key : Bytes}

/-- `delete` leaves the lookups of other keys alone. -/
theorem delete_get_other (table : Table) {key' : Bytes} (hne : key ≠ key') :
    get key' (delete key table).2.tuples = get key' table.tuples := by
  unfold delete
  cases hf : find key table.tuples with
  | none => rfl
  | some i =>
      obtain ⟨htuple, hkey⟩ := find_tuple hf
      refine get_set_other ?_ (hasKey_hole key')
      intro t ht
      rw [htuple] at ht
      rw [← Option.some.inj ht]
      exact hasKey_other hkey hne

/-- `delete` frees a literal exactly where it deletes one. -/
theorem delete_badFree_iff (table : Table) :
    (delete key table).2.heap.badFree = false ↔
      table.heap.badFree = false ∧ TupleOwned key table.tuples := by
  unfold delete TupleOwned
  cases hf : find key table.tuples with
  | none => simp
  | some i =>
      show ((table.heap.free _).free _).badFree = false ↔ _
      rw [badFree_free, badFree_free, Bool.or_eq_false_iff, Bool.or_eq_false_iff,
        decide_eq_false_iff_not, decide_eq_false_iff_not, and_assoc]
      simp

/-- `delete` damages the heap exactly there. -/
theorem delete_damaged_iff (table : Table) : table.heap.damaged (delete key table).2.heap = false ↔
    table.heap.badFree = false ∧ TupleOwned key table.tuples := by
  have hsame : (delete key table).2.heap.stray = table.heap.stray := by
    unfold delete
    cases find key table.tuples with
    | none => rfl
    | some i =>
        show ((table.heap.free _).free _).stray = _
        rw [stray_free, stray_free]
  rw [damaged_eq_false_iff, delete_badFree_iff, hsame, and_iff_left (Nat.le_refl _)]

end Delete

end ChordDht.Chord
