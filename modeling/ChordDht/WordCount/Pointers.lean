/-
`linked_list.c` and `hashmap.c` as they are in memory.

The nodes, their keys, the array of heads and the map are blocks that hold each other's
addresses, and any allocation may fail.  `llFind` itself allocates: without its copy of the key
it finds nothing, and a key that is there gets a second node.  On a heap on which a map is laid
out, next to any other blocks, the calls do what `updateWith` says of the lists, fault nowhere
but where a sum of counts is no `int`, and leave a map laid out; `hmFree` takes all of its blocks
off the heap.
-/
import ChordDht.Lib.Blocks
import ChordDht.WordCount.HashMap

namespace ChordDht.WordCount.Pointers

open Blocks Outcome

/-- `LLNode`. -/
structure Node where
  key : Nat
  count : ℤ
  next : Nat

/-- What is allocated: a text, a node, an array of heads, or a `HashMap`. -/
inductive Block where
  | text (s : Bytes)
  | node (fields : Node)
  | heads (array : List Nat)
  | map (buckets nBuckets : Nat)

def Block.asText : Block → Outcome Bytes
  | .text s => .returns s
  | _ => .faults

def Block.asNode : Block → Outcome Node
  | .node fields => .returns fields
  | _ => .faults

def Block.asHeads : Block → Outcome (List Nat)
  | .heads array => .returns array
  | _ => .faults

/-- The fields `buckets` and `n_buckets`. -/
def Block.asMap : Block → Outcome (Nat × Nat)
  | .map buckets nBuckets => .returns (buckets, nBuckets)
  | _ => .faults

/-! ### The calls on a list -/

def llStrdupLower (h : Heap Block) (s : Bytes) : Nat × Heap Block := h.malloc (.text (lower s))

def strcmp (h : Heap Block) (s t : Nat) : Outcome Bool := do
  let first ← h.load s >>= Block.asText
  let second ← h.load t >>= Block.asText
  return first = second

/-- The loop of `ll_find`. -/
def llSeek (h : Heap Block) (keyLower : Nat) : Nat → Nat → Outcome Nat
  | 0, node => if node = 0 then .returns 0 else .diverges
  | fuel + 1, node =>
      if node = 0 then .returns 0
      else do
        let fields ← h.load node >>= Block.asNode
        let same ← strcmp h fields.key keyLower
        if same then return node else llSeek h keyLower fuel fields.next

def llFind (h : Heap Block) (head : Nat) (key : Bytes) : Outcome (Nat × Heap Block) :=
  let keyLower := llStrdupLower h key
  if keyLower.1 = 0 then .returns (0, keyLower.2)
  else do
    let node ← llSeek keyLower.2 keyLower.1 keyLower.2.asked head
    let h ← keyLower.2.free keyLower.1
    return (node, h)

def llGet (h : Heap Block) (head : Nat) (key : Bytes) : Outcome (Option ℤ × Heap Block) := do
  let found ← llFind h head key
  if found.1 = 0 then return (none, found.2)
  else do
    let fields ← found.2.load found.1 >>= Block.asNode
    return (some fields.count, found.2)

/-- A new node in front, if there is memory for it and its key. -/
def llPush (h : Heap Block) (head : Nat) (key : Bytes) (count : ℤ) : Outcome (Bool × Nat × Heap Block) :=
  let keyLower := llStrdupLower h key
  if keyLower.1 = 0 then .returns (false, head, keyLower.2)
  else
    let newNode := keyLower.2.malloc (.node ⟨keyLower.1, count, head⟩)
    if newNode.1 = 0 then do
      let h ← newNode.2.free keyLower.1
      return (false, head, h)
    else .returns (true, newNode.1, newNode.2)

/-- The sum is an `int`. -/
def IntSum (a b : ℤ) : Prop := -2 ^ 31 ≤ a + b ∧ a + b < 2 ^ 31

instance (a b : ℤ) : Decidable (IntSum a b) := inferInstanceAs (Decidable (_ ∧ _))

/-- The addition of two `int`s. -/
def addInt (a b : ℤ) : Outcome ℤ := if IntSum a b then .returns (a + b) else .faults

/-- What `ll_put_inc` and `ll_set` do: whether they return 0, and the head they leave. -/
def llUpdate (h : Heap Block) (head : Nat) (key : Bytes) (f : ℤ → Outcome ℤ) (init : ℤ) :
    Outcome (Bool × Nat × Heap Block) := do
  let found ← llFind h head key
  if found.1 = 0 then llPush found.2 head key init
  else do
    let fields ← found.2.load found.1 >>= Block.asNode
    let count ← f fields.count
    let h ← found.2.store found.1 (.node { fields with count := count })
    return (true, head, h)

def llPutInc (h : Heap Block) (head : Nat) (key : Bytes) (delta : ℤ) : Outcome (Bool × Nat × Heap Block) :=
  llUpdate h head key (fun count => addInt count delta) delta

def llSet (h : Heap Block) (head : Nat) (key : Bytes) (count : ℤ) : Outcome (Bool × Nat × Heap Block) :=
  llUpdate h head key (fun _ => .returns count) count

/-- The loop of `ll_free`. -/
def llRelease : Nat → Heap Block → Nat → Outcome (Heap Block)
  | 0, h, current => if current = 0 then .returns h else .diverges
  | fuel + 1, h, current =>
      if current = 0 then .returns h
      else do
        let fields ← h.load current >>= Block.asNode
        let h ← h.free fields.key
        let h ← h.free current
        llRelease fuel h fields.next

def llFree (h : Heap Block) (head : Nat) : Outcome (Heap Block) := llRelease h.asked h head

/-- The loop of `ll_remove` over the nodes behind `current`. -/
def llUnlink (h : Heap Block) (keyLower : Nat) : Nat → Nat → Outcome (Bool × Heap Block)
  | 0, _ => .diverges
  | fuel + 1, current => do
      let fields ← h.load current >>= Block.asNode
      if fields.next = 0 then return (false, h)
      else do
        let behind ← h.load fields.next >>= Block.asNode
        let same ← strcmp h behind.key keyLower
        if same then do
          let h ← h.store current (.node { fields with next := behind.next })
          let h ← h.free behind.key
          let h ← h.free fields.next
          return (true, h)
        else llUnlink h keyLower fuel fields.next

/-- Whether a node is removed, and the head. -/
def llRemove (h : Heap Block) (head : Nat) (key : Bytes) : Outcome (Bool × Nat × Heap Block) :=
  if head = 0 then .returns (false, head, h)
  else
    let keyLower := llStrdupLower h key
    if keyLower.1 = 0 then .returns (false, head, keyLower.2)
    else do
      let first ← keyLower.2.load head >>= Block.asNode
      let same ← strcmp keyLower.2 first.key keyLower.1
      if same then do
        let h ← keyLower.2.free first.key
        let h ← h.free head
        let h ← h.free keyLower.1
        return (true, first.next, h)
      else do
        let r ← llUnlink keyLower.2 keyLower.1 keyLower.2.asked head
        let h ← r.2.free keyLower.1
        return (r.1, head, h)

/-- The loop over all nodes of `ll_length` and `ll_foreach`, with what is done at each. -/
def llWalk {β : Type} (visit : Node → Outcome β) (h : Heap Block) : Nat → Nat → Outcome (List β)
  | 0, node => if node = 0 then .returns [] else .diverges
  | fuel + 1, node =>
      if node = 0 then .returns []
      else do
        let fields ← h.load node >>= Block.asNode
        let b ← visit fields
        let others ← llWalk visit h fuel fields.next
        return b :: others

def llLength (h : Heap Block) (head : Nat) : Outcome Nat := do
  let visits ← llWalk (fun _ => .returns ()) h h.asked head
  return visits.length

/-- What the function of `ll_foreach` is called with at a node. -/
def arguments (h : Heap Block) (fields : Node) : Outcome (Bytes × ℤ) := do
  let key ← h.load fields.key >>= Block.asText
  return (key, fields.count)

def llForeach (h : Heap Block) (head : Nat) : Outcome (List (Bytes × ℤ)) := llWalk (arguments h) h h.asked head

/-! ### A list in memory -/

/-- A node with the addresses of the node and of its key. -/
structure Placed where
  addr : Nat
  keyAddr : Nat
  node : LLNode

def headOf : List Placed → Nat
  | [] => 0
  | p :: _ => p.addr

theorem headOf_cons (p : Placed) (ps : List Placed) : headOf (p :: ps) = p.addr := rfl

def Placed.block (p : Placed) (next : Nat) : Nat × Block := (p.addr, .node ⟨p.keyAddr, p.node.count, next⟩)

def Placed.keyBlock (p : Placed) : Nat × Block := (p.keyAddr, .text p.node.key)

/-- The blocks of a list. -/
def blocks : List Placed → Multiset (Nat × Block)
  | [] => 0
  | p :: ps => {p.block (headOf ps)} + {p.keyBlock} + blocks ps

variable {h : Heap Block} {g : Nat → Bool} {n a : Nat} {bs : Multiset (Nat × Block)} {key : Bytes}

theorem load_text {s : Bytes} (his : h.Is g n bs) (hmem : (a, Block.text s) ∈ bs) :
    (h.load a >>= Block.asText) = .returns s := by
  rw [his.load hmem]
  rfl

theorem load_node (his : h.Is g n bs) {fields : Node} (hmem : (a, Block.node fields) ∈ bs) :
    (h.load a >>= Block.asNode) = .returns fields := by
  rw [his.load hmem]
  rfl

theorem strcmp_spec {b : Nat} {s t : Bytes} (his : h.Is g n bs) (hs : (a, Block.text s) ∈ bs)
    (ht : (b, Block.text t) ∈ bs) : strcmp h a b = .returns (decide (s = t)) := by
  rw [strcmp, load_text his hs, returns_bind, load_text his ht]
  rfl

theorem card_blocks (ps : List Placed) : ps.length ≤ Multiset.card (blocks ps) := by
  induction ps with
  | nil => exact Nat.zero_le _
  | cons p ps ih =>
      rw [blocks, Multiset.card_add, Multiset.card_add, Multiset.card_singleton, Multiset.card_singleton,
        List.length_cons]
      omega

theorem length_le_asked {ps : List Placed} (his : h.Is g n bs) (hsub : blocks ps ≤ bs) : ps.length ≤ h.asked := by
  rw [his.asked]
  exact ((card_blocks ps).trans (Multiset.card_le_card hsub)).trans his.card_le

/-- The first node with the key, or null. -/
def firstWith (key : Bytes) : List Placed → Nat
  | [] => 0
  | p :: ps => if p.node.key = key then p.addr else firstWith key ps

/-- **The loop stops** at the first node with the key. -/
theorem llSeek_spec (his : h.Is g n bs) {keyLower : Nat} (hkey : (keyLower, Block.text key) ∈ bs) :
    ∀ (ps : List Placed) (fuel : Nat), blocks ps ≤ bs → ps.length ≤ fuel →
      llSeek h keyLower fuel (headOf ps) = .returns (firstWith key ps) := by
  intro ps
  induction ps with
  | nil =>
      intro fuel _ _
      cases fuel with
      | zero => rfl
      | succ fuel => rfl
  | cons p ps ih =>
      intro fuel hsub hfuel
      obtain ⟨fuel, rfl⟩ : ∃ k, fuel = k + 1 := ⟨fuel - 1, by rw [List.length_cons] at hfuel; omega⟩
      have hle : blocks ps ≤ bs := le_trans (Multiset.le_add_left _ _) hsub
      have hnode : p.block (headOf ps) ∈ bs := Multiset.mem_of_le hsub (by simp [blocks])
      have hname : p.keyBlock ∈ bs := Multiset.mem_of_le hsub (by simp [blocks])
      rw [headOf_cons, llSeek, if_neg (his.ne_null hnode), load_node his hnode, returns_bind,
        strcmp_spec his hname hkey, returns_bind, firstWith]
      by_cases hsame : p.node.key = key
      · rw [if_pos (decide_eq_true hsame), if_pos hsame]
        rfl
      · rw [if_neg (by simpa using hsame), if_neg hsame]
        exact ih fuel hle (Nat.le_of_succ_le_succ hfuel)

/-- The copy of the key comes and goes. -/
theorem llFind_spec (ps : List Placed) (key : Bytes) (his : h.Is g n (blocks ps + bs)) :
    ∃ h', llFind h (headOf ps) key = .returns (if g n then firstWith (lower key) ps else 0, h') ∧
      h'.Is g (n + 1) (blocks ps + bs) := by
  rw [llFind, llStrdupLower]
  cases hg : g n with
  | false =>
      obtain ⟨hnull, his'⟩ := his.malloc_refused hg (.text (lower key))
      rw [if_pos hnull]
      exact ⟨_, rfl, his'⟩
  | true =>
      obtain ⟨haddr, his'⟩ := his.malloc_granted hg (.text (lower key))
      have hsub : blocks ps ≤ {(n + 1, Block.text (lower key))} + (blocks ps + bs) :=
        le_trans (Multiset.le_add_right _ _) (Multiset.le_add_left _ _)
      have hseek := llSeek_spec his' (mem_front _ _) ps _ hsub (length_le_asked his' hsub)
      obtain ⟨h', hfree, hdone⟩ := his'.free
      refine ⟨h', ?_, hdone⟩
      rw [if_neg (by rw [haddr]; exact Nat.succ_ne_zero n), haddr, hseek, returns_bind, hfree]
      rfl

/-! ### What a list is updated to -/

/-- `llPush` on the list, after `n` questions: whether it is 0, the list, and the questions then. -/
def pushWith (g : Nat → Bool) (n : Nat) (head : List LLNode) (key : Bytes) (count : ℤ) : Bool × List LLNode × Nat :=
  if g n = false then (false, head, n + 1)
  else if g (n + 1) = false then (false, head, n + 2)
  else (true, ⟨lower key, count⟩ :: head, n + 2)

/-- `llUpdate` on the list; the first question is for the copy of the key. -/
def updateWith (g : Nat → Bool) (n : Nat) (head : List LLNode) (key : Bytes) (f : ℤ → ℤ) (init : ℤ) :
    Bool × List LLNode × Nat :=
  if g n = true ∧ head.any (·.key == lower key) = true then (true, llChange (lower key) f head, n + 1)
  else pushWith g (n + 1) head key init

def getWith (g : Nat → Bool) (n : Nat) (head : List LLNode) (key : Bytes) : Option ℤ :=
  if g n then (head.find? (·.key == lower key)).map (·.count) else none

/-- **With its copy of the key** it is `WordCount.llUpdate`, or it fails and the key is not there. -/
theorem updateWith_cases (hg : g n = true) (head : List LLNode) (key : Bytes) (f : ℤ → ℤ) (init : ℤ) :
    ∃ k, n ≤ k ∧ (updateWith g n head key f init = (true, WordCount.llUpdate head key f init, k) ∨
      updateWith g n head key f init = (false, head, k) ∧ ¬ head.any (·.key == lower key) = true ∧
        ∃ j, n ≤ j ∧ g j = false) := by
  rw [updateWith, WordCount.llUpdate, pushWith]
  by_cases hany : head.any (·.key == lower key) = true
  · rw [if_pos ⟨hg, hany⟩, if_pos hany]
    exact ⟨n + 1, Nat.le_succ n, Or.inl rfl⟩
  · rw [if_neg (fun h => hany h.2), if_neg hany]
    by_cases hcopy : g (n + 1) = false
    · rw [if_pos hcopy]
      exact ⟨n + 1 + 1, by omega, Or.inr ⟨rfl, hany, n + 1, Nat.le_succ n, hcopy⟩⟩
    · rw [if_neg hcopy]
      by_cases hnode : g (n + 1 + 1) = false
      · rw [if_pos hnode]
        exact ⟨n + 1 + 2, by omega, Or.inr ⟨rfl, hany, n + 1 + 1, by omega, hnode⟩⟩
      · rw [if_neg hnode]
        exact ⟨n + 1 + 2, by omega, Or.inl rfl⟩

/-- The run leaves a list in memory, as wanted. -/
def Leaves (run : Outcome (Bool × Nat × Heap Block)) (g : Nat → Bool) (bs : Multiset (Nat × Block))
    (want : Bool × List LLNode × Nat) : Prop :=
  ∃ h' ps', run = .returns (want.1, headOf ps', h') ∧ ps'.map Placed.node = want.2.1 ∧
    h'.Is g want.2.2 (blocks ps' + bs)

theorem llPush_spec (ps : List Placed) (key : Bytes) (count : ℤ) (his : h.Is g n (blocks ps + bs)) :
    Leaves (llPush h (headOf ps) key count) g bs (pushWith g n (ps.map Placed.node) key count) := by
  rw [llPush, llStrdupLower, pushWith]
  cases hg : g n with
  | false =>
      obtain ⟨hnull, his'⟩ := his.malloc_refused hg (.text (lower key))
      rw [if_pos hnull, if_pos rfl]
      exact ⟨_, ps, rfl, rfl, his'⟩
  | true =>
      obtain ⟨haddr, hcopy⟩ := his.malloc_granted hg (.text (lower key))
      rw [if_neg (by rw [haddr]; exact Nat.succ_ne_zero n), if_neg (by decide : ¬ true = false), haddr]
      cases hg' : g (n + 1) with
      | false =>
          obtain ⟨hnull, hboth⟩ := hcopy.malloc_refused hg' (.node ⟨n + 1, count, headOf ps⟩)
          obtain ⟨h', hfree, hdone⟩ := hboth.free
          rw [if_pos hnull, if_pos rfl, hfree]
          exact ⟨h', ps, rfl, rfl, hdone⟩
      | true =>
          obtain ⟨haddr', hboth⟩ := hcopy.malloc_granted hg' (.node ⟨n + 1, count, headOf ps⟩)
          rw [if_neg (by rw [haddr']; exact Nat.succ_ne_zero _), if_neg (by decide : ¬ true = false), haddr']
          refine ⟨_, ⟨n + 2, n + 1, ⟨lower key, count⟩⟩ :: ps, rfl, rfl, ?_⟩
          rw [blocks, add_assoc, add_assoc]
          exact hboth

/-! ### Where the key is -/

theorem addr_ne_null {ps : List Placed} (his : h.Is g n (blocks ps + bs)) : ∀ p ∈ ps, p.addr ≠ 0 := by
  induction ps generalizing bs with
  | nil => exact fun p hp => absurd hp List.not_mem_nil
  | cons p ps ih =>
      have hmem : p.block (headOf ps) ∈ blocks (p :: ps) + bs := by simp [blocks]
      have hrest : h.Is g n (blocks ps + ({p.block (headOf ps)} + {p.keyBlock} + bs)) := by
        have heq : blocks ps + ({p.block (headOf ps)} + {p.keyBlock} + bs) = blocks (p :: ps) + bs := by
          rw [blocks]
          abel
        rw [heq]
        exact his
      intro q hq
      rcases List.mem_cons.mp hq with rfl | hq
      · exact his.ne_null hmem
      · exact ih hrest q hq

theorem firstWith_eq_zero {ps : List Placed} (hpos : ∀ p ∈ ps, p.addr ≠ 0) (key : Bytes) :
    firstWith key ps = 0 ↔ ¬ (ps.map Placed.node).any (·.key == key) = true := by
  induction ps with
  | nil => simp [firstWith]
  | cons p ps ih =>
      have hp := hpos p (List.mem_cons_self ..)
      have ih := ih fun q hq => hpos q (List.mem_cons_of_mem _ hq)
      rw [firstWith, List.map_cons, List.any_cons]
      by_cases hkey : p.node.key = key
      · simp [hkey, hp]
      · rw [if_neg hkey, ih]
        simp [hkey]

/-- The first node with the key gets another count. -/
def change (key : Bytes) (f : ℤ → ℤ) : List Placed → List Placed
  | [] => []
  | p :: ps =>
      if p.node.key = key then { p with node := { p.node with count := f p.node.count } } :: ps
      else p :: change key f ps

theorem headOf_change (key : Bytes) (f : ℤ → ℤ) (ps : List Placed) : headOf (change key f ps) = headOf ps := by
  cases ps with
  | nil => rfl
  | cons p ps =>
      rw [change]
      by_cases hkey : p.node.key = key
      · rw [if_pos hkey]
        rfl
      · rw [if_neg hkey]
        rfl

theorem map_change (key : Bytes) (f : ℤ → ℤ) (ps : List Placed) :
    (change key f ps).map Placed.node = llChange key f (ps.map Placed.node) := by
  induction ps with
  | nil => rfl
  | cons p ps ih =>
      rw [change, List.map_cons, llChange]
      by_cases hkey : p.node.key = key
      · rw [if_pos hkey, if_pos hkey]
        rfl
      · rw [if_neg hkey, if_neg hkey, List.map_cons, ih]

/-- **One block is written**: that of the first node with the key. -/
theorem blocks_change {ps : List Placed} {key : Bytes} (hany : (ps.map Placed.node).any (·.key == key) = true) :
    ∃ fields rest, blocks ps = {(firstWith key ps, Block.node fields)} + rest ∧
      ((ps.map Placed.node).find? (·.key == key)).map (·.count) = some fields.count ∧
      ∀ f : ℤ → ℤ, blocks (change key f ps) =
        {(firstWith key ps, Block.node { fields with count := f fields.count })} + rest := by
  induction ps with
  | nil => exact absurd hany Bool.false_ne_true
  | cons p ps ih =>
      by_cases hkey : p.node.key = key
      · refine ⟨⟨p.keyAddr, p.node.count, headOf ps⟩, {p.keyBlock} + blocks ps, ?_, ?_, ?_⟩
        · rw [firstWith, if_pos hkey, blocks, add_assoc]
          rfl
        · simp [hkey]
        · intro f
          rw [firstWith, if_pos hkey, change, if_pos hkey, blocks, add_assoc]
          rfl
      · have hrest : (ps.map Placed.node).any (·.key == key) = true := by simpa [hkey] using hany
        obtain ⟨fields, rest, hblocks, hfind, hchange⟩ := ih hrest
        refine ⟨fields, {p.block (headOf ps)} + {p.keyBlock} + rest, ?_, ?_, ?_⟩
        · rw [firstWith, if_neg hkey, blocks, hblocks]
          abel
        · rw [← hfind]
          simp [hkey]
        · intro f
          rw [firstWith, if_neg hkey, change, if_neg hkey, blocks, headOf_change, hchange]
          abel

/-- **An update in memory** is one of the list, if the new count can be computed. -/
theorem llUpdate_spec (ps : List Placed) (key : Bytes) {f : ℤ → Outcome ℤ} {f' : ℤ → ℤ} (init : ℤ)
    (hf : ∀ count ∈ getWith g n (ps.map Placed.node) key, f count = .returns (f' count))
    (his : h.Is g n (blocks ps + bs)) :
    Leaves (llUpdate h (headOf ps) key f init) g bs (updateWith g n (ps.map Placed.node) key f' init) := by
  obtain ⟨h', hfind, his'⟩ := llFind_spec ps key his
  have hzero := firstWith_eq_zero (addr_ne_null his) (lower key)
  rw [llUpdate, hfind, returns_bind, updateWith]
  by_cases hthere : g n = true ∧ (ps.map Placed.node).any (·.key == lower key) = true
  · obtain ⟨fields, rest, hblocks, hcount, hchange⟩ := blocks_change hthere.2
    rw [getWith, if_pos hthere.1, hcount] at hf
    rw [hblocks, add_assoc] at his'
    obtain ⟨h'', hstore, hdone⟩ := his'.store (.node { fields with count := f' fields.count })
    have hload := load_node his' (mem_front _ _)
    rw [if_pos hthere, if_pos hthere.1, if_neg (fun h => hzero.mp h hthere.2), hload, returns_bind, hf _ rfl,
      returns_bind, hstore]
    refine ⟨h'', change (lower key) f' ps, ?_, map_change _ _ _, ?_⟩
    · rw [headOf_change]
      rfl
    · rw [hchange, add_assoc]
      exact hdone
  · have hnone : (if g n = true then firstWith (lower key) ps else 0) = 0 := by
      by_cases hg : g n = true
      · rw [if_pos hg]
        exact hzero.mpr fun hany => hthere ⟨hg, hany⟩
      · exact if_neg hg
    rw [if_neg hthere, hnone, if_pos rfl]
    exact llPush_spec ps key init his'

theorem llGet_spec (ps : List Placed) (key : Bytes) (his : h.Is g n (blocks ps + bs)) :
    ∃ h', llGet h (headOf ps) key = .returns (getWith g n (ps.map Placed.node) key, h') ∧
      h'.Is g (n + 1) (blocks ps + bs) := by
  obtain ⟨h', hfind, his'⟩ := llFind_spec ps key his
  have hzero := firstWith_eq_zero (addr_ne_null his) (lower key)
  refine ⟨h', ?_, his'⟩
  rw [llGet, hfind, returns_bind, getWith]
  by_cases hg : g n = true
  · rw [if_pos hg, if_pos hg]
    by_cases hany : (ps.map Placed.node).any (·.key == lower key) = true
    · obtain ⟨fields, rest, hblocks, hcount, -⟩ := blocks_change hany
      have hload := @load_node h' g (n + 1) (firstWith (lower key) ps) _ his' fields (by simp [hblocks])
      rw [if_neg (fun h => hzero.mp h hany), hload, hcount]
      rfl
    · rw [if_pos (hzero.mpr hany)]
      have hnone : (ps.map Placed.node).find? (·.key == lower key) = none := by simpa using hany
      rw [hnone]
      rfl
  · rw [if_neg hg, if_neg hg, if_pos rfl]
    rfl

/-- **The nodes and their keys are given back**, each once. -/
theorem llRelease_spec (ps : List Placed) : ∀ (fuel : Nat) {h : Heap Block}, h.Is g n (blocks ps + bs) →
    ps.length ≤ fuel → ∃ h', llRelease fuel h (headOf ps) = .returns h' ∧ h'.Is g n bs := by
  induction ps with
  | nil =>
      intro fuel h his _
      rw [blocks, zero_add] at his
      cases fuel with
      | zero => exact ⟨h, rfl, his⟩
      | succ fuel => exact ⟨h, rfl, his⟩
  | cons p ps ih =>
      intro fuel h his hfuel
      obtain ⟨fuel, rfl⟩ : ∃ k, fuel = k + 1 := ⟨fuel - 1, by rw [List.length_cons] at hfuel; omega⟩
      have hnode : p.block (headOf ps) ∈ blocks (p :: ps) + bs := by simp [blocks]
      have hload := load_node his hnode
      have hnull := his.ne_null hnode
      have heq : blocks (p :: ps) + bs = {p.keyBlock} + ({p.block (headOf ps)} + (blocks ps + bs)) := by
        rw [blocks]
        abel
      rw [heq] at his
      obtain ⟨h1, hfree1, his1⟩ := his.free
      obtain ⟨h2, hfree2, his2⟩ := his1.free
      obtain ⟨h', hrun, hdone⟩ := ih fuel his2 (Nat.le_of_succ_le_succ hfuel)
      refine ⟨h', ?_, hdone⟩
      rw [headOf_cons, llRelease, if_neg hnull, hload, returns_bind, hfree1, returns_bind, hfree2, returns_bind]
      exact hrun

theorem llFree_spec (ps : List Placed) (his : h.Is g n (blocks ps + bs)) :
    ∃ h', llFree h (headOf ps) = .returns h' ∧ h'.Is g n bs := by
  exact llRelease_spec ps h.asked his (length_le_asked his (Multiset.le_add_right _ _))

/-! ### Taking a node out -/

/-- `ll_remove` on the list, after `n` questions. -/
def removeWith (g : Nat → Bool) (n : Nat) (head : List LLNode) (key : Bytes) : Bool × List LLNode × Nat :=
  if head = [] then (false, [], n)
  else if g n = false then (false, head, n + 1)
  else (head.any (·.key == lower key), head.eraseP (·.key == lower key), n + 1)

theorem map_eraseP (key : Bytes) (ps : List Placed) : (ps.eraseP (·.node.key == key)).map Placed.node =
    (ps.map Placed.node).eraseP (·.key == key) := by
  rw [List.eraseP_map]
  rfl

/-- **The loop links around** the first node with the key behind `p`, and gives it back. -/
theorem llUnlink_spec {keyLower : Nat} (ps : List Placed) : ∀ (p : Placed) (fuel : Nat)
    {bs : Multiset (Nat × Block)}, h.Is g n (blocks (p :: ps) + bs) → (keyLower, Block.text key) ∈ bs →
    ps.length < fuel → ∃ h', llUnlink h keyLower fuel p.addr = .returns (ps.any (·.node.key == key), h') ∧
      h'.Is g n (blocks (p :: ps.eraseP (·.node.key == key)) + bs) := by
  induction ps with
  | nil =>
      intro p fuel bs his _ hfuel
      obtain ⟨fuel, rfl⟩ : ∃ k, fuel = k + 1 := ⟨fuel - 1, by omega⟩
      have hload := @load_node h g n p.addr _ his ⟨p.keyAddr, p.node.count, 0⟩
        (by simp [blocks, Placed.block, headOf])
      refine ⟨h, ?_, his⟩
      rw [llUnlink, hload]
      rfl
  | cons q ps ih =>
      intro p fuel bs his hcopy hfuel
      obtain ⟨fuel, rfl⟩ : ∃ k, fuel = k + 1 := ⟨fuel - 1, by omega⟩
      have hload := @load_node h g n p.addr _ his ⟨p.keyAddr, p.node.count, q.addr⟩
        (by simp [blocks, Placed.block, headOf])
      have hnext : q.block (headOf ps) ∈ blocks (p :: q :: ps) + bs := by simp [blocks]
      have hname : q.keyBlock ∈ blocks (p :: q :: ps) + bs := by simp [blocks]
      have hstrcmp := strcmp_spec his hname (Multiset.mem_add.mpr (Or.inr hcopy))
      rw [llUnlink, hload, returns_bind, if_neg (his.ne_null hnext), load_node his hnext, returns_bind, hstrcmp,
        returns_bind]
      by_cases hsame : q.node.key = key
      · have hfront : blocks (p :: q :: ps) + bs = {p.block q.addr} +
            ({q.keyBlock} + ({q.block (headOf ps)} + ({p.keyBlock} + blocks ps + bs))) := by
          rw [blocks, blocks, headOf_cons]
          abel
        rw [hfront] at his
        obtain ⟨h1, hstore, his1⟩ := his.store (.node ⟨p.keyAddr, p.node.count, headOf ps⟩)
        rw [add_left_comm] at his1
        obtain ⟨h2, hfree2, his2⟩ := his1.free
        rw [add_left_comm] at his2
        obtain ⟨h3, hfree3, his3⟩ := his2.free
        refine ⟨h3, ?_, ?_⟩
        · rw [if_pos (decide_eq_true hsame), hstore, returns_bind, hfree2, returns_bind, hfree3, returns_bind]
          simp [hsame]
        · rw [List.eraseP_cons_of_pos (by simpa using hsame), blocks]
          rw [← add_assoc, ← add_assoc] at his3
          exact his3
      · have hfront : blocks (p :: q :: ps) + bs = blocks (q :: ps) + ({p.block q.addr} + {p.keyBlock} + bs) := by
          rw [blocks, headOf_cons]
          abel
        rw [hfront] at his
        obtain ⟨h', hrun, hdone⟩ := ih q fuel his (Multiset.mem_add.mpr (Or.inr hcopy))
          (Nat.lt_of_succ_lt_succ hfuel)
        refine ⟨h', ?_, ?_⟩
        · rw [if_neg (by simpa using hsame), hrun]
          simp [hsame]
        · have hback : blocks (p :: (q :: ps).eraseP (·.node.key == key)) + bs =
              blocks (q :: ps.eraseP (·.node.key == key)) + ({p.block q.addr} + {p.keyBlock} + bs) := by
            rw [List.eraseP_cons_of_neg (by simpa using hsame), blocks, headOf_cons]
            abel
          rw [hback]
          exact hdone

theorem llRemove_spec (ps : List Placed) (key : Bytes) (his : h.Is g n (blocks ps + bs)) :
    Leaves (llRemove h (headOf ps) key) g bs (removeWith g n (ps.map Placed.node) key) := by
  cases ps with
  | nil => exact ⟨h, [], rfl, rfl, his⟩
  | cons p ps =>
      have hnull := addr_ne_null his p (List.mem_cons_self ..)
      rw [headOf_cons, llRemove, if_neg hnull, llStrdupLower, removeWith, List.map_cons, if_neg (List.cons_ne_nil _ _)]
      cases hg : g n with
      | false =>
          obtain ⟨hrefused, his'⟩ := his.malloc_refused hg (.text (lower key))
          rw [if_pos hrefused, if_pos rfl]
          exact ⟨_, p :: ps, rfl, rfl, his'⟩
      | true =>
          obtain ⟨haddr, hcopy⟩ := his.malloc_granted hg (.text (lower key))
          have hnode : p.block (headOf ps) ∈ {(n + 1, Block.text (lower key))} + (blocks (p :: ps) + bs) := by
            simp [blocks]
          have hname : p.keyBlock ∈ {(n + 1, Block.text (lower key))} + (blocks (p :: ps) + bs) := by simp [blocks]
          rw [if_neg (by rw [haddr]; exact Nat.succ_ne_zero n), if_neg (by decide : ¬ true = false), haddr,
            load_node hcopy hnode, returns_bind, strcmp_spec hcopy hname (mem_front _ _), returns_bind]
          by_cases hsame : p.node.key = lower key
          · have hfront : {(n + 1, Block.text (lower key))} + (blocks (p :: ps) + bs) =
                {p.keyBlock} + ({p.block (headOf ps)} + ({(n + 1, Block.text (lower key))} + (blocks ps + bs))) := by
              rw [blocks]
              abel
            rw [hfront] at hcopy
            obtain ⟨h1, hfree1, his1⟩ := hcopy.free
            obtain ⟨h2, hfree2, his2⟩ := his1.free
            obtain ⟨h3, hfree3, his3⟩ := his2.free
            refine ⟨h3, ps, ?_, ?_, his3⟩
            · rw [if_pos (decide_eq_true hsame), hfree1, returns_bind, hfree2, returns_bind, hfree3, returns_bind]
              simp [hsame]
            · simp [hsame]
          · have hsub : blocks (p :: ps) ≤ {(n + 1, Block.text (lower key))} + (blocks (p :: ps) + bs) :=
              le_trans (Multiset.le_add_right _ _) (Multiset.le_add_left _ _)
            have hlength := length_le_asked hcopy hsub
            rw [add_left_comm] at hcopy
            obtain ⟨h1, hrun, his1⟩ := llUnlink_spec ps p _ hcopy (mem_front _ _) hlength
            rw [add_left_comm] at his1
            obtain ⟨h2, hfree, his2⟩ := his1.free
            refine ⟨h2, p :: ps.eraseP (·.node.key == lower key), ?_, ?_, his2⟩
            · rw [if_neg (by simpa using hsame), hrun, returns_bind, hfree]
              simp [hsame, Function.comp_def, headOf_cons]
            · rw [List.map_cons, map_eraseP, List.eraseP_cons_of_neg (by simpa using hsame)]

/-! ### Going through a list -/

/-- **The loop** visits each node once, in order. -/
theorem llWalk_spec {β : Type} {visit : Node → Outcome β} {result : LLNode → β} (his : h.Is g n bs)
    (hvisit : ∀ (p : Placed) (next : Nat), p.keyBlock ∈ bs →
      visit ⟨p.keyAddr, p.node.count, next⟩ = .returns (result p.node))
    (ps : List Placed) : ∀ fuel : Nat, blocks ps ≤ bs → ps.length ≤ fuel →
      llWalk visit h fuel (headOf ps) = .returns (ps.map fun p => result p.node) := by
  induction ps with
  | nil =>
      intro fuel _ _
      cases fuel with
      | zero => rfl
      | succ fuel => rfl
  | cons p ps ih =>
      intro fuel hsub hfuel
      obtain ⟨fuel, rfl⟩ : ∃ k, fuel = k + 1 := ⟨fuel - 1, by rw [List.length_cons] at hfuel; omega⟩
      have hnode : p.block (headOf ps) ∈ bs := Multiset.mem_of_le hsub (by simp [blocks])
      have hname : p.keyBlock ∈ bs := Multiset.mem_of_le hsub (by simp [blocks])
      have hrest := ih fuel (le_trans (Multiset.le_add_left _ _) hsub) (Nat.le_of_succ_le_succ hfuel)
      rw [headOf_cons, llWalk, if_neg (his.ne_null hnode), load_node his hnode, returns_bind, hvisit p _ hname,
        returns_bind, hrest]
      rfl

theorem llLength_spec (his : h.Is g n bs) {ps : List Placed} (hsub : blocks ps ≤ bs) :
    llLength h (headOf ps) = .returns ps.length := by
  have hwalk := @llWalk_spec h g n bs Unit (fun _ => .returns ()) (fun _ => ()) his (fun _ _ _ => rfl) ps h.asked hsub
    (length_le_asked his hsub)
  rw [llLength, hwalk, returns_bind, List.length_map]
  rfl

theorem llForeach_spec (his : h.Is g n bs) {ps : List Placed} (hsub : blocks ps ≤ bs) :
    llForeach h (headOf ps) = .returns (pairs (ps.map Placed.node)) := by
  have hvisit : ∀ (p : Placed) (next : Nat), p.keyBlock ∈ bs →
      arguments h ⟨p.keyAddr, p.node.count, next⟩ = .returns (p.node.key, p.node.count) := by
    intro p next hname
    rw [arguments, load_text his hname]
    rfl
  have hwalk := @llWalk_spec h g n bs _ (arguments h) (fun node => (node.key, node.count)) his hvisit ps h.asked hsub
    (length_le_asked his hsub)
  rw [pairs, List.map_map]
  exact hwalk

end ChordDht.WordCount.Pointers
