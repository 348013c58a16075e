/-
The calls on a map in memory.

They go through two more blocks, the map and its array of heads.  `Laid` says that a map of
lists is laid out on the heap, next to other blocks.  Whatever allocations fail, a call on it
that adds no counts beyond an `int` faults nowhere, does what `onMap` says of the lists, and
leaves the map laid out.
-/
import ChordDht.WordCount.Maps
import ChordDht.WordCount.Pointers

namespace ChordDht.WordCount.Pointers

open Blocks Outcome

/-! ### The calls on a map -/

def bucketIndex (nBuckets : Nat) (key : Bytes) : Nat :=
  if nBuckets = 0 then 0 else (djb2Hash key).toNat % nBuckets

/-- What is in the array at `i`. -/
def slot (array : List Nat) (i : Nat) : Outcome Nat := array[i]?.elim .faults .returns

/-- The fields of the map are set when there is an array. -/
def hmCreate (h : Heap Block) (nBuckets : Nat) : Outcome (Nat × Heap Block) :=
  let size := if nBuckets = 0 then 1024 else nBuckets
  let hm := h.malloc (.map 0 0)
  if hm.1 = 0 then .returns (0, hm.2)
  else
    let buckets := hm.2.malloc (.heads (List.replicate size 0))
    if buckets.1 = 0 then do
      let h ← buckets.2.free hm.1
      return (0, h)
    else do
      let h ← buckets.2.store hm.1 (.map buckets.1 size)
      return (hm.1, h)

/-- What `hm_put_inc` and `hm_set` do with a call on the list: whether they return 0. -/
def hmUpdate (update : Heap Block → Nat → Outcome (Bool × Nat × Heap Block)) (h : Heap Block) (hm : Nat)
    (key : Bytes) : Outcome (Bool × Heap Block) :=
  if hm = 0 then .returns (false, h)
  else do
    let map ← h.load hm >>= Block.asMap
    if map.1 = 0 then return (false, h)
    else do
      let array ← h.load map.1 >>= Block.asHeads
      let head ← slot array (bucketIndex map.2 key)
      let r ← update h head
      let h ← r.2.2.store map.1 (.heads (array.set (bucketIndex map.2 key) r.2.1))
      return (r.1, h)

def hmPutInc (h : Heap Block) (hm : Nat) (key : Bytes) (delta : ℤ) : Outcome (Bool × Heap Block) :=
  hmUpdate (fun h head => llPutInc h head key delta) h hm key

def hmSet (h : Heap Block) (hm : Nat) (key : Bytes) (count : ℤ) : Outcome (Bool × Heap Block) :=
  hmUpdate (fun h head => llSet h head key count) h hm key

def hmGet (h : Heap Block) (hm : Nat) (key : Bytes) : Outcome (Option ℤ × Heap Block) :=
  if hm = 0 then .returns (none, h)
  else do
    let map ← h.load hm >>= Block.asMap
    if map.1 = 0 then return (none, h)
    else do
      let array ← h.load map.1 >>= Block.asHeads
      let head ← slot array (bucketIndex map.2 key)
      llGet h head key

/-- `k` more turns of the loop of `hm_entry_count` and `hm_foreach`, from the bucket `i` on. -/
def overBuckets {β : Type} (visit : Nat → Outcome β) (h : Heap Block) (buckets : Nat) : Nat → Nat → Outcome (List β)
  | 0, _ => .returns []
  | k + 1, i => do
      let array ← h.load buckets >>= Block.asHeads
      let head ← slot array i
      let b ← visit head
      let others ← overBuckets visit h buckets k (i + 1)
      return b :: others

def hmEntryCount (h : Heap Block) (hm : Nat) : Outcome Nat :=
  if hm = 0 then .returns 0
  else do
    let map ← h.load hm >>= Block.asMap
    if map.1 = 0 then return 0
    else do
      let lengths ← overBuckets (llLength h) h map.1 map.2 0
      return lengths.sum

def hmForeach (h : Heap Block) (hm : Nat) : Outcome (List (Bytes × ℤ)) :=
  if hm = 0 then .returns []
  else do
    let map ← h.load hm >>= Block.asMap
    if map.1 = 0 then return []
    else do
      let entries ← overBuckets (llForeach h) h map.1 map.2 0
      return entries.flatten

/-- `k` more turns of the loop of `hm_clear` and `hm_free`, from the bucket `i` on; `hm_clear` also
writes the head. -/
def releaseFrom (clears : Bool) (buckets : Nat) : Nat → Nat → Heap Block → Outcome (Heap Block)
  | 0, _, h => .returns h
  | k + 1, i, h => do
      let array ← h.load buckets >>= Block.asHeads
      let head ← slot array i
      let h ← llFree h head
      if clears then do
        let h ← h.store buckets (.heads (array.set i 0))
        releaseFrom clears buckets k (i + 1) h
      else releaseFrom clears buckets k (i + 1) h

def hmClear (h : Heap Block) (hm : Nat) : Outcome (Heap Block) :=
  if hm = 0 then .returns h
  else do
    let map ← h.load hm >>= Block.asMap
    if map.1 = 0 then return h else releaseFrom true map.1 map.2 0 h

def hmFree (h : Heap Block) (hm : Nat) : Outcome (Heap Block) :=
  if hm = 0 then .returns h
  else do
    let map ← h.load hm >>= Block.asMap
    if map.1 = 0 then h.free hm
    else do
      let h ← releaseFrom false map.1 map.2 0 h
      let h ← h.free map.1
      h.free hm

/-! ### A map in memory -/

/-- The blocks of a map. -/
def mapBlocks (hm buckets : Nat) (lists : List (List Placed)) : Multiset (Nat × Block) :=
  {(hm, .map buckets lists.length)} + {(buckets, .heads (lists.map headOf))} + (lists.map blocks).sum

def view (lists : List (List Placed)) : HashMap := ⟨lists.map fun ps => ps.map Placed.node⟩

/-- The map `m` is on the heap, next to `bs`. -/
def Laid (h : Heap Block) (g : Nat → Bool) (n hm : Nat) (m : HashMap) (bs : Multiset (Nat × Block)) : Prop :=
  ∃ buckets lists, view lists = m ∧ lists ≠ [] ∧ h.Is g n (mapBlocks hm buckets lists + bs)

variable {h : Heap Block} {g : Nat → Bool} {n a hm buckets : Nat} {bs : Multiset (Nat × Block)}
  {lists : List (List Placed)} {m : HashMap}

theorem load_heads {array : List Nat} (his : h.Is g n bs) (hmem : (a, Block.heads array) ∈ bs) :
    (h.load a >>= Block.asHeads) = .returns array := by
  rw [his.load hmem]
  rfl

theorem load_map {size : Nat} (his : h.Is g n bs) (hmem : (hm, Block.map buckets size) ∈ bs) :
    (h.load hm >>= Block.asMap) = .returns (buckets, size) := by
  rw [his.load hmem]
  rfl

theorem slot_append (done : List Nat) (head : Nat) (rest : List Nat) :
    slot (done ++ head :: rest) done.length = .returns head := by
  rw [slot, List.getElem?_append_right (Nat.le_refl _), Nat.sub_self]
  rfl

theorem bucketIndex_lt (hne : lists ≠ []) (key : Bytes) : bucketIndex lists.length key < lists.length := by
  have hpos := List.length_pos_of_ne_nil hne
  rw [bucketIndex, if_neg (by omega)]
  exact Nat.mod_lt _ hpos

theorem bucketIndex_view (lists : List (List Placed)) (key : Bytes) :
    WordCount.bucketIndex (view lists) key = bucketIndex lists.length key := by
  rw [WordCount.bucketIndex, bucketIndex, view, List.length_map]

/-- The blocks of one list, and the others, which stay when the list is another one. -/
theorem sum_blocks_set {i : Nat} (hi : i < lists.length) :
    ∃ rest, (lists.map blocks).sum = blocks lists[i] + rest ∧
      ∀ qs, ((lists.set i qs).map blocks).sum = blocks qs + rest := by
  have hset : ∀ qs, ((lists.set i qs).map blocks).sum =
      blocks qs + (((lists.take i).map blocks).sum + ((lists.drop (i + 1)).map blocks).sum) := by
    intro qs
    rw [List.set_eq_take_append_cons_drop, if_pos hi, List.map_append, List.map_cons, List.sum_append, List.sum_cons]
    abel
  refine ⟨_, ?_, hset⟩
  rw [← hset, List.set_getElem_self]

/-- The blocks of one list in front. -/
theorem mapBlocks_slot {i : Nat} (hi : i < lists.length) (hm buckets : Nat) (bs : Multiset (Nat × Block)) :
    ∃ rest, mapBlocks hm buckets lists + bs = blocks lists[i] + ({(buckets, .heads (lists.map headOf))} + rest) ∧
      ∀ qs, mapBlocks hm buckets (lists.set i qs) + bs =
        {(buckets, .heads ((lists.map headOf).set i (headOf qs)))} + (blocks qs + rest) := by
  obtain ⟨rest, hsum, hset⟩ := sum_blocks_set hi
  refine ⟨{(hm, .map buckets lists.length)} + rest + bs, ?_, ?_⟩
  · rw [mapBlocks, hsum]
    abel
  · intro qs
    rw [mapBlocks, hset, List.length_set, List.map_set]
    abel

/-- The array in front, and then the lists. -/
theorem mapBlocks_lists (hm buckets : Nat) (lists : List (List Placed)) (bs : Multiset (Nat × Block)) :
    mapBlocks hm buckets lists + bs = {(buckets, .heads (lists.map headOf))} +
      ((lists.map blocks).sum + ({(hm, .map buckets lists.length)} + bs)) := by
  rw [mapBlocks]
  abel

/-! ### The loops over the buckets -/

/-- **The lists are given back**, one bucket after the other. -/
theorem releaseFrom_spec (clears : Bool) (lists : List (List Placed)) : ∀ (done : List Nat) {h : Heap Block},
    h.Is g n ({(buckets, Block.heads (done ++ lists.map headOf))} + ((lists.map blocks).sum + bs)) →
    ∃ h', releaseFrom clears buckets lists.length done.length h = .returns h' ∧
      h'.Is g n ({(buckets, Block.heads (done ++ lists.map fun ps => if clears then 0 else headOf ps))} + bs) := by
  induction lists with
  | nil =>
      intro done h his
      rw [List.map_nil, List.map_nil, List.sum_nil, zero_add] at his
      exact ⟨h, rfl, his⟩
  | cons ps lists ih =>
      intro done h his
      have hload := load_heads his (mem_front _ _)
      rw [List.map_cons, List.map_cons, List.sum_cons, add_assoc, add_left_comm] at his
      obtain ⟨h1, hfree, his1⟩ := llFree_spec ps his
      rw [List.length_cons, releaseFrom, hload, returns_bind, List.map_cons, slot_append, returns_bind, hfree,
        returns_bind, List.map_cons]
      cases clears with
      | false =>
          have his1 : h1.Is g n ({(buckets, Block.heads ((done ++ [headOf ps]) ++ lists.map headOf))} +
              ((lists.map blocks).sum + bs)) := by rwa [List.append_assoc]
          obtain ⟨h', hrun, hdone⟩ := ih (done ++ [headOf ps]) his1
          rw [List.append_assoc] at hdone
          rw [List.length_append] at hrun
          exact ⟨h', hrun, hdone⟩
      | true =>
          obtain ⟨h2, hstore, his2⟩ := his1.store (.heads ((done ++ [0]) ++ lists.map headOf))
          obtain ⟨h', hrun, hdone⟩ := ih (done ++ [0]) his2
          have hset : (done ++ headOf ps :: lists.map headOf).set done.length 0 =
              (done ++ [0]) ++ lists.map headOf := by simp
          rw [List.append_assoc] at hdone
          rw [List.length_append] at hrun
          refine ⟨h', ?_, hdone⟩
          rw [if_pos rfl, hset, hstore, returns_bind]
          exact hrun

/-- What is done with each list from the bucket `done.length` on. -/
theorem overBuckets_spec {β : Type} {visit : Nat → Outcome β} {result : List Placed → β} (his : h.Is g n bs)
    (hvisit : ∀ ps, blocks ps ≤ bs → visit (headOf ps) = .returns (result ps)) (lists : List (List Placed)) :
    ∀ done : List Nat, (buckets, Block.heads (done ++ lists.map headOf)) ∈ bs → (lists.map blocks).sum ≤ bs →
      overBuckets visit h buckets lists.length done.length = .returns (lists.map result) := by
  induction lists with
  | nil => intro done _ _; rfl
  | cons ps lists ih =>
      intro done hmem hsub
      have hload := load_heads his hmem
      rw [List.map_cons, List.sum_cons] at hsub
      have hthis := hvisit ps (le_trans (Multiset.le_add_right _ _) hsub)
      have hrest := ih (done ++ [headOf ps]) (by rwa [List.append_assoc])
        (le_trans (Multiset.le_add_left _ _) hsub)
      rw [List.length_append] at hrest
      rw [List.length_cons, overBuckets, hload, returns_bind, List.map_cons, slot_append, returns_bind, hthis,
        returns_bind, show done.length + 1 = done.length + [headOf ps].length from rfl, hrest]
      rfl

/-! ### One call -/

inductive MapCall where
  | putInc (key : Bytes) (delta : ℤ)
  | set (key : Bytes) (count : ℤ)
  | get (key : Bytes)
  | entryCount
  | foreach
  | clear
  deriving DecidableEq, Repr

/-- What a call returns: 0 or -1, a count if there is one, a number of entries, or the entries. -/
inductive Reply where
  | status (zero : Bool)
  | count (count : Option ℤ)
  | size (entries : Nat)
  | visited (entries : List (Bytes × ℤ))
  | done
  deriving DecidableEq, Repr

def MapCall.run (h : Heap Block) (hm : Nat) : MapCall → Outcome (Reply × Heap Block)
  | .putInc key delta => do
      let r ← hmPutInc h hm key delta
      return (.status r.1, r.2)
  | .set key count => do
      let r ← hmSet h hm key count
      return (.status r.1, r.2)
  | .get key => do
      let r ← hmGet h hm key
      return (.count r.1, r.2)
  | .entryCount => do
      let entries ← hmEntryCount h hm
      return (.size entries, h)
  | .foreach => do
      let entries ← hmForeach h hm
      return (.visited entries, h)
  | .clear => do
      let h ← hmClear h hm
      return (.done, h)

/-- The list that the key belongs to. -/
def listOf (m : HashMap) (key : Bytes) : List LLNode := m.buckets.getD (WordCount.bucketIndex m key) []

/-- An update of the map after `n` questions: whether it is 0, the map, and the questions then. -/
def putWith (g : Nat → Bool) (n : Nat) (m : HashMap) (key : Bytes) (f : ℤ → ℤ) (init : ℤ) : Bool × HashMap × Nat :=
  let r := updateWith g n (listOf m key) key f init
  (r.1, ⟨m.buckets.set (WordCount.bucketIndex m key) r.2.1⟩, r.2.2)

/-- The call on the map of lists. -/
def MapCall.onMap (g : Nat → Bool) (n : Nat) (m : HashMap) : MapCall → Reply × HashMap × Nat
  | .putInc key delta =>
      let r := putWith g n m key (· + delta) delta
      (.status r.1, r.2)
  | .set key count =>
      let r := putWith g n m key (fun _ => count) count
      (.status r.1, r.2)
  | .get key => (.count (getWith g n (listOf m key) key), m, n + 1)
  | .entryCount => (.size (WordCount.hmEntryCount m), m, n)
  | .foreach => (.visited m.entries, m, n)
  | .clear => (.done, WordCount.hmClear m, n)

/-- The call adds no two `int`s whose sum is none. -/
def MapCall.Sums (g : Nat → Bool) (n : Nat) (m : HashMap) : MapCall → Prop
  | .putInc key delta => ∀ count ∈ getWith g n (listOf m key) key, IntSum count delta
  | .set _ _ => True
  | .get _ => True
  | .entryCount => True
  | .foreach => True
  | .clear => True

instance (g : Nat → Bool) (n : Nat) (m : HashMap) (call : MapCall) : Decidable (call.Sums g n m) := by
  cases call <;> (unfold MapCall.Sums; infer_instance)

theorem listOf_view {key : Bytes} (hi : bucketIndex lists.length key < lists.length) :
    listOf (view lists) key = lists[bucketIndex lists.length key].map Placed.node := by
  rw [listOf, bucketIndex_view, view, List.getD_eq_getElem?_getD, List.getElem?_map, List.getElem?_eq_getElem hi]
  rfl

/-- What the calls read first. -/
structure Opened (h : Heap Block) (hm buckets : Nat) (lists : List (List Placed)) (bs : Multiset (Nat × Block)) :
    Prop where
  there : hm ≠ 0
  filled : buckets ≠ 0
  heads : (buckets, Block.heads (lists.map headOf)) ∈ bs
  behind : (lists.map blocks).sum ≤ bs
  map : (h.load hm >>= Block.asMap) = .returns (buckets, lists.length)
  array : (h.load buckets >>= Block.asHeads) = .returns (lists.map headOf)

theorem opened (his : h.Is g n (mapBlocks hm buckets lists + bs)) :
    Opened h hm buckets lists (mapBlocks hm buckets lists + bs) := by
  have hmap : (hm, Block.map buckets lists.length) ∈ mapBlocks hm buckets lists + bs := by simp [mapBlocks]
  have hheads : (buckets, Block.heads (lists.map headOf)) ∈ mapBlocks hm buckets lists + bs := by simp [mapBlocks]
  have hlists : (lists.map blocks).sum ≤ mapBlocks hm buckets lists + bs :=
    le_trans (Multiset.le_add_left _ _) (Multiset.le_add_right _ _)
  exact ⟨his.ne_null hmap, his.ne_null hheads, hheads, hlists, load_map his hmap, load_heads his hheads⟩

theorem slot_map {i : Nat} (hi : i < lists.length) : slot (lists.map headOf) i = .returns (headOf lists[i]) := by
  rw [slot, List.getElem?_map, List.getElem?_eq_getElem hi]
  rfl

/-- **An update in memory** is one of the map, if the new count can be computed. -/
theorem hmUpdate_spec (hlaid : Laid h g n hm m bs) (key : Bytes) {f : ℤ → Outcome ℤ} {f' : ℤ → ℤ} (init : ℤ)
    (hf : ∀ count ∈ getWith g n (listOf m key) key, f count = .returns (f' count)) :
    ∃ h', hmUpdate (fun h head => llUpdate h head key f init) h hm key =
        .returns ((putWith g n m key f' init).1, h') ∧
      Laid h' g (putWith g n m key f' init).2.2 hm (putWith g n m key f' init).2.1 bs := by
  obtain ⟨buckets, lists, rfl, hne, his⟩ := hlaid
  have hopen := opened his
  have hi := bucketIndex_lt hne key
  obtain ⟨rest, hfront, hset⟩ := mapBlocks_slot hi hm buckets bs
  rw [hfront] at his
  rw [listOf_view hi] at hf
  obtain ⟨h1, ps, hrun, hps, his1⟩ := llUpdate_spec _ key init hf his
  rw [← listOf_view hi] at hrun hps his1
  rw [add_left_comm] at his1
  obtain ⟨h2, hstore, his2⟩ := his1.store
    (.heads ((lists.map headOf).set (bucketIndex lists.length key) (headOf ps)))
  rw [← hset] at his2
  refine ⟨h2, ?_, buckets, lists.set (bucketIndex lists.length key) ps, ?_, ?_, his2⟩
  · rw [hmUpdate, if_neg hopen.there, hopen.map, returns_bind, if_neg hopen.filled, hopen.array, returns_bind,
      slot_map hi, returns_bind, hrun, returns_bind, hstore]
    rfl
  · rw [putWith, bucketIndex_view, view, List.map_set, hps]
    rfl
  · intro hnil
    have hlength := congrArg List.length hnil
    rw [List.length_set] at hlength
    exact hne (List.length_eq_zero_iff.mp hlength)

theorem hmGet_spec (hlaid : Laid h g n hm m bs) (key : Bytes) :
    ∃ h', hmGet h hm key = .returns (getWith g n (listOf m key) key, h') ∧ Laid h' g (n + 1) hm m bs := by
  obtain ⟨buckets, lists, rfl, hne, his⟩ := hlaid
  have hopen := opened his
  have hi := bucketIndex_lt hne key
  obtain ⟨rest, hfront, -⟩ := mapBlocks_slot hi hm buckets bs
  rw [hfront] at his
  obtain ⟨h', hrun, his'⟩ := llGet_spec _ key his
  rw [← hfront] at his'
  refine ⟨h', ?_, buckets, lists, rfl, hne, his'⟩
  rw [hmGet, if_neg hopen.there, hopen.map, returns_bind, if_neg hopen.filled, hopen.array, returns_bind,
    slot_map hi, returns_bind, hrun, listOf_view hi]

theorem hmClear_spec (hlaid : Laid h g n hm m bs) :
    ∃ h', hmClear h hm = .returns h' ∧ Laid h' g n hm (WordCount.hmClear m) bs := by
  obtain ⟨buckets, lists, rfl, hne, his⟩ := hlaid
  have hopen := opened his
  rw [mapBlocks_lists] at his
  obtain ⟨h', hrun, his'⟩ := releaseFrom_spec true lists [] his
  refine ⟨h', ?_, buckets, lists.map fun _ => [], ?_, ?_, ?_⟩
  · rw [hmClear, if_neg hopen.there, hopen.map, returns_bind, if_neg hopen.filled]
    exact hrun
  · rw [view, WordCount.hmClear, view, List.map_map, List.map_map]
    rfl
  · intro hnil
    exact hne (List.map_eq_nil_iff.mp hnil)
  · have hzero : ((lists.map fun _ => ([] : List Placed)).map blocks).sum = 0 := by
      rw [List.map_map]
      refine List.sum_eq_zero ?_
      intro b hb
      obtain ⟨_, -, rfl⟩ := List.mem_map.mp hb
      rfl
    rw [mapBlocks_lists, hzero, zero_add, List.length_map, List.map_map]
    exact his'

theorem hmEntryCount_spec (hlaid : Laid h g n hm m bs) :
    hmEntryCount h hm = .returns (WordCount.hmEntryCount m) := by
  obtain ⟨buckets, lists, rfl, -, his⟩ := hlaid
  have hopen := opened his
  have hover := overBuckets_spec his (fun ps hps => llLength_spec his hps) lists [] hopen.heads hopen.behind
  have hsize : WordCount.hmEntryCount (view lists) = (lists.map List.length).sum := by
    rw [hmEntryCount_eq, HashMap.entries, List.length_map, List.length_flatten, view, List.map_map]
    congr 1
    exact List.map_congr_left fun ps _ => List.length_map ..
  rw [List.length_nil] at hover
  rw [hmEntryCount, if_neg hopen.there, hopen.map, returns_bind, if_neg hopen.filled, hover, hsize]
  rfl

theorem hmForeach_spec (hlaid : Laid h g n hm m bs) : hmForeach h hm = .returns m.entries := by
  obtain ⟨buckets, lists, rfl, -, his⟩ := hlaid
  have hopen := opened his
  have hover := overBuckets_spec his (fun ps hps => llForeach_spec his hps) lists [] hopen.heads hopen.behind
  have hentries : (lists.map fun ps => pairs (ps.map Placed.node)).flatten = (view lists).entries := by
    simp [view, HashMap.entries, pairs, List.map_flatten]
  rw [List.length_nil] at hover
  rw [hmForeach, if_neg hopen.there, hopen.map, returns_bind, if_neg hopen.filled, hover, ← hentries]
  rfl

/-- **One call in memory** is one on the map. -/
theorem MapCall.run_spec (hlaid : Laid h g n hm m bs) (call : MapCall) (hsums : call.Sums g n m) :
    ∃ h', call.run h hm = .returns ((call.onMap g n m).1, h') ∧
      Laid h' g (call.onMap g n m).2.2 hm (call.onMap g n m).2.1 bs := by
  cases call with
  | putInc key delta =>
      obtain ⟨h', hrun, hlaid'⟩ := hmUpdate_spec hlaid key delta fun count hcount =>
        show addInt count delta = .returns (count + delta) from if_pos (hsums count hcount)
      have hput : hmPutInc h hm key delta = .returns ((putWith g n m key (· + delta) delta).1, h') := hrun
      refine ⟨h', ?_, hlaid'⟩
      rw [MapCall.run, hput]
      rfl
  | set key count =>
      obtain ⟨h', hrun, hlaid'⟩ := @hmUpdate_spec h g n hm bs m hlaid key (fun _ => .returns count)
        (fun _ => count) count fun _ _ => rfl
      have hset : hmSet h hm key count = .returns ((putWith g n m key (fun _ => count) count).1, h') := hrun
      refine ⟨h', ?_, hlaid'⟩
      rw [MapCall.run, hset]
      rfl
  | get key =>
      obtain ⟨h', hrun, hlaid'⟩ := hmGet_spec hlaid key
      refine ⟨h', ?_, hlaid'⟩
      rw [MapCall.run, hrun]
      rfl
  | entryCount =>
      refine ⟨h, ?_, hlaid⟩
      rw [MapCall.run, hmEntryCount_spec hlaid]
      rfl
  | foreach =>
      refine ⟨h, ?_, hlaid⟩
      rw [MapCall.run, hmForeach_spec hlaid]
      rfl
  | clear =>
      obtain ⟨h', hrun, hlaid'⟩ := hmClear_spec hlaid
      refine ⟨h', ?_, hlaid'⟩
      rw [MapCall.run, hrun]
      rfl

end ChordDht.WordCount.Pointers
