/-
Maps in memory, and what they stand for.

`hm_merge` reads one map while it writes another, and both may be the same: the loop is
over the nodes as they are then, a node being known by how many stand behind it, since new
ones come in front.  Each call of `hashmap.h` has its meaning on finite maps of keys in
lower case.  After any calls on maps that were created, every map in memory is one for
the finite map at its place: `Refines` says what can be seen of that.  Counts are
integers here, which is what the code's are as long as they stay in their range.
-/
import ChordDht.WordCount.HashMap

namespace ChordDht.WordCount

open Slots

/-- `ll_length`. -/
def llLength : List LLNode → Nat
  | [] => 0
  | _ :: rest => llLength rest + 1

/-- `hm_entry_count`. -/
def hmEntryCount (hm : HashMap) : Nat :=
  hm.buckets.foldl (fun total bucket => total + llLength bucket) 0

/-- `ll_foreach`: the context is what the function writes through its pointer. -/
def llForeach {σ : Type} (fn : Bytes → ℤ → σ → σ) (head : List LLNode) (ctx : σ) : σ :=
  head.foldl (fun ctx node => fn node.key node.count ctx) ctx

/-- `hm_foreach`. -/
def hmForeach {σ : Type} (fn : Bytes → ℤ → σ → σ) (hm : HashMap) (ctx : σ) : σ :=
  hm.buckets.foldl (fun ctx bucket => llForeach fn bucket ctx) ctx

/-- `hm_clear`. -/
def hmClear (hm : HashMap) : HashMap := ⟨hm.buckets.map fun _ => []⟩

/-- The maps that were created, in that order. -/
abbrev Maps := List HashMap

/-- Bucket `i` of a map, as it is now. -/
def bucketAt (maps : Maps) (src i : Nat) : List LLNode :=
  ((maps[src]?).bind fun hm => hm.buckets[i]?).getD []

/-- The inner loop of `hm_merge`, from the node with `behind - 1` nodes behind it. -/
def mergeBucket (dst src i : Nat) : Nat → Maps → Maps
  | 0, maps => maps
  | behind + 1, maps =>
      match (bucketAt maps src i).reverse[behind]? with
      | some node => mergeBucket dst src i behind (maps.modify dst fun hm => hmPutInc hm node.key node.count)
      | none => maps

/-- The outer loop of `hm_merge`, over the first `n` buckets. -/
def mergeBuckets (dst src : Nat) : Nat → Maps → Maps
  | 0, maps => maps
  | n + 1, maps =>
      let done := mergeBuckets dst src n maps
      mergeBucket dst src n (bucketAt done src n).length done

/-- `hm_merge`. -/
def hmMerge (maps : Maps) (dst src : Nat) : Maps :=
  mergeBuckets dst src ((maps[src]?).elim 0 fun hm => hm.buckets.length) maps

/-! ### What is seen of a map -/

theorem llLength_eq (head : List LLNode) : llLength head = head.length := by
  induction head with
  | nil => rfl
  | cons node rest ih => rw [llLength, ih, List.length_cons]

theorem length_pairs (nodes : List LLNode) : (pairs nodes).length = nodes.length := List.length_map ..

theorem entries_eq (hm : HashMap) : hm.entries = pairs hm.buckets.flatten := rfl

theorem hmEntryCount_eq (hm : HashMap) : hmEntryCount hm = hm.entries.length := by
  have hfold : ∀ (buckets : List (List LLNode)) (total : Nat),
      buckets.foldl (fun total bucket => total + llLength bucket) total
        = total + buckets.flatten.length := by
    intro buckets
    induction buckets with
    | nil => intro total; rfl
    | cons bucket rest ih =>
        intro total
        rw [List.foldl_cons, ih, llLength_eq, List.flatten_cons, List.length_append]
        omega
  rw [hmEntryCount, hfold, entries_eq, length_pairs, Nat.zero_add]

theorem hmForeach_eq {σ : Type} (fn : Bytes → ℤ → σ → σ) (hm : HashMap) (ctx : σ) :
    hmForeach fn hm ctx = hm.entries.foldl (fun ctx t => fn t.1 t.2 ctx) ctx := by
  rw [entries_eq, pairs, List.foldl_map, List.foldl_flatten]
  rfl

/-! ### One map -/

/-- The map is one for `m`: placed, its keys in lower case, and its entries those of `m`. -/
structure Keeps (hm : HashMap) (m : Bytes → Option ℤ) : Prop where
  placed : hm.Placed
  keys : ∀ t ∈ hm.entries, lower t.1 = t.1
  lists : Lists hm.entries m

theorem keeps_create (n : Nat) : Keeps (hmCreate n) fun _ => none := by
  refine ⟨(holds_create n).placed, ?_, ?_⟩
  · intro t ht
    rw [entries_create] at ht
    exact absurd ht List.not_mem_nil
  · rw [entries_create]
    exact Lists.nil

/-- **One update.** -/
theorem Keeps.update {hm : HashMap} {m : Bytes → Option ℤ} (h : Keeps hm m) (key : Bytes) (f : ℤ → ℤ)
    (init : ℤ) : Keeps (hmUpdate hm key f init)
      (Function.update m (lower key) (some ((m (lower key)).elim init f))) := by
  refine ⟨hmUpdate_placed h.placed key f init, ?_, hmUpdate_lists h.placed h.lists key f init⟩
  intro t ht
  have hsub : t.1 = lower key ∨ ∃ u ∈ hm.entries, u.1 = t.1 := by
    obtain ⟨front, back, ⟨n, hold, hnew⟩ | ⟨-, hold, hnew⟩⟩ := hmUpdate_entries h.placed key f init
    · rw [hnew, List.perm_middle.mem_iff, List.mem_cons] at ht
      rcases ht with rfl | ht
      · exact Or.inl rfl
      · refine Or.inr ⟨t, ?_, rfl⟩
        rw [hold, List.perm_middle.mem_iff]
        exact List.mem_cons_of_mem _ ht
    · rw [hnew, List.perm_middle.mem_iff, List.mem_cons] at ht
      rcases ht with rfl | ht
      · exact Or.inl rfl
      · exact Or.inr ⟨t, by rw [hold]; exact ht, rfl⟩
  rcases hsub with hkey | ⟨u, hu, hkey⟩
  · rw [hkey, lower_lower]
  · rw [← hkey]
    exact h.keys u hu

theorem Keeps.putInc {hm : HashMap} {m : Bytes → Option ℤ} (h : Keeps hm m) (key : Bytes) (delta : ℤ) :
    Keeps (hmPutInc hm key delta) (Function.update m (lower key) (some ((m (lower key)).getD 0 + delta))) := by
  have hvalue : (m (lower key)).getD 0 + delta = (m (lower key)).elim delta (· + delta) := by
    cases m (lower key) with
    | none => exact Int.zero_add delta
    | some n => rfl
  rw [hmPutInc_eq, hvalue]
  exact h.update key (· + delta) delta

theorem Keeps.set {hm : HashMap} {m : Bytes → Option ℤ} (h : Keeps hm m) (key : Bytes) (count : ℤ) :
    Keeps (hmSet hm key count) (Function.update m (lower key) (some count)) := by
  have hvalue : count = (m (lower key)).elim count fun _ => count := by
    cases m (lower key) <;> rfl
  have hset : hmSet hm key count = hmUpdate hm key (fun _ => count) count := rfl
  have hupdate := h.update key (fun _ => count) count
  rwa [← hvalue, ← hset] at hupdate

theorem Keeps.clear {hm : HashMap} {m : Bytes → Option ℤ} (h : Keeps hm m) :
    Keeps (hmClear hm) fun _ => none := by
  have hempty : ∀ bucket ∈ (hmClear hm).buckets, bucket = [] := by
    intro bucket hbucket
    obtain ⟨_, -, rfl⟩ := List.mem_map.mp hbucket
    rfl
  have hentries : (hmClear hm).entries = [] := by
    rw [entries_eq, List.flatten_eq_nil_iff.mpr hempty]
    rfl
  refine ⟨⟨?_, ?_⟩, ?_, ?_⟩
  · rw [hmClear, List.length_map]
    exact h.placed.buckets
  · intro i bucket hi node hnode
    rw [hempty bucket (List.mem_of_getElem? hi)] at hnode
    exact absurd hnode List.not_mem_nil
  · intro t ht
    rw [hentries] at ht
    exact absurd ht List.not_mem_nil
  · rw [hentries]
    exact Lists.nil

/-- **Putting all entries of another map** adds that map. -/
theorem Keeps.putAll {hm : HashMap} {ts : List (Bytes × ℤ)} {m more : Bytes → Option ℤ} (h : Keeps hm m)
    (hkeys : ∀ t ∈ ts, lower t.1 = t.1) (hlists : Lists ts more) :
    Keeps (putAll hm ts) (plus m more) := by
  rw [← foldl_plus hlists]
  clear hlists
  induction ts generalizing hm m with
  | nil => exact h
  | cons t ts ih =>
      have hput := h.putInc t.1 t.2
      rw [hkeys t (List.mem_cons_self ..)] at hput
      exact ih hput fun u hu => hkeys u (List.mem_cons_of_mem _ hu)

/-! ### Merging another map -/

theorem bucketAt_of_some {maps : Maps} {src i : Nat} {hm : HashMap} {bucket : List LLNode}
    (hsrc : maps[src]? = some hm) (hi : hm.buckets[i]? = some bucket) : bucketAt maps src i = bucket := by
  rw [bucketAt, hsrc, Option.bind_some, hi, Option.getD_some]

/-- The node with as many nodes behind it as there are behind it. -/
theorem reverse_getElem? (front : List LLNode) (node : LLNode) (back : List LLNode) :
    (front ++ node :: back).reverse[back.length]? = some node := by
  have hlen : back.length - back.reverse.length = 0 := by
    rw [List.length_reverse]
    omega
  rw [List.reverse_append, List.reverse_cons, List.append_assoc,
    List.getElem?_append_right (by rw [List.length_reverse]), hlen]
  rfl

theorem putAll_append (hm : HashMap) (ts us : List (Bytes × ℤ)) :
    putAll hm (ts ++ us) = putAll (putAll hm ts) us := List.foldl_append ..

/-- The nodes of a bucket of a map that is only read are put one after the other. -/
theorem mergeBucket_other {dst src i : Nat} (hne : dst ≠ src) {hm : HashMap} {back : List LLNode} :
    ∀ {front : List LLNode} {maps : Maps}, maps[src]? = some hm →
      hm.buckets[i]? = some (front ++ back) →
        mergeBucket dst src i back.length maps = maps.modify dst fun d => putAll d (pairs back) := by
  induction back with
  | nil =>
      intro front maps _ _
      exact (List.modify_id dst maps).symm
  | cons node back ih =>
      intro front maps hsrc hi
      have hsrc' : (maps.modify dst fun d => hmPutInc d node.key node.count)[src]? = some hm := by
        rw [List.getElem?_modify_ne _ _ hne, hsrc]
      rw [List.length_cons, mergeBucket, bucketAt_of_some hsrc hi, reverse_getElem?]
      simp only
      rw [@ih (front ++ [node]) _ hsrc' (by rw [hi, List.append_assoc]; rfl), List.modify_modify_eq]
      rfl

theorem mergeBuckets_other {dst src : Nat} (hne : dst ≠ src) {hm : HashMap} {maps : Maps}
    (hsrc : maps[src]? = some hm) {n : Nat} (hn : n ≤ hm.buckets.length) :
    mergeBuckets dst src n maps = maps.modify dst fun d => putAll d (pairs (hm.buckets.take n).flatten) := by
  induction n with
  | zero => exact (List.modify_id dst maps).symm
  | succ n ih =>
      have hi : hm.buckets[n]? = some ([] ++ hm.buckets[n]) := List.getElem?_eq_getElem (by omega)
      have hsrc' : (maps.modify dst fun d => putAll d (pairs (hm.buckets.take n).flatten))[src]? = some hm := by
        rw [List.getElem?_modify_ne _ _ hne, hsrc]
      have htake : pairs (hm.buckets.take (n + 1)).flatten
          = pairs (hm.buckets.take n).flatten ++ pairs hm.buckets[n] := by
        rw [List.take_succ_eq_append_getElem (by omega), List.flatten_append, pairs, List.map_append,
          List.flatten_singleton]
        rfl
      rw [mergeBuckets, ih (by omega), bucketAt_of_some hsrc' hi, List.nil_append, mergeBucket_other hne hsrc' hi,
        List.modify_modify_eq, htake]
      simp only [putAll_append]
      rfl

/-- **Merging another map** puts all of its entries. -/
theorem hmMerge_other {dst src : Nat} (hne : dst ≠ src) {hm : HashMap} {maps : Maps}
    (hsrc : maps[src]? = some hm) : hmMerge maps dst src = maps.modify dst fun d => putAll d hm.entries := by
  rw [hmMerge, hsrc, Option.elim_some, mergeBuckets_other hne hsrc (Nat.le_refl _), List.take_length,
    entries_eq]

/-! ### Merging a map into itself -/

/-- The node with its count put on top of it. -/
def LLNode.twice (node : LLNode) : LLNode := { node with count := node.count + node.count }

theorem pairs_twice (nodes : List LLNode) :
    pairs (nodes.map LLNode.twice) = (pairs nodes).map fun t => (t.1, t.2 + t.2) := by
  simp [pairs, LLNode.twice]

/-- The node of the key, behind nodes of other keys. -/
theorem llPutInc_at {front back : List LLNode} {node : LLNode} (hlower : lower node.key = node.key)
    (hfront : ∀ n ∈ front, n.key ≠ node.key) (delta : ℤ) :
    llPutInc (front ++ node :: back) node.key delta
      = front ++ { node with count := node.count + delta } :: back := by
  have hinc : llChange node.key (· + delta) (front ++ node :: back)
      = front ++ { node with count := node.count + delta } :: back := by
    induction front with
    | nil => rw [List.nil_append, llChange, if_pos rfl, List.nil_append]
    | cons n front ih =>
        rw [List.cons_append, llChange, if_neg (hfront n (List.mem_cons_self ..)), List.cons_append,
          ih fun n' hn' => hfront n' (List.mem_cons_of_mem _ hn')]
  rw [llPutInc, llUpdate, if_pos (by simp [hlower]), hlower, hinc]

/-- What the nodes of a bucket have to be for the merge to find each one again: under their
own index, in lower case, and of different keys. -/
structure Found (hm : HashMap) (i : Nat) (bucket : List LLNode) : Prop where
  index : ∀ node ∈ bucket, bucketIndex hm node.key = i
  lower : ∀ node ∈ bucket, lower node.key = node.key
  keys : (bucket.map LLNode.key).Nodup

/-- Only the keys matter to that, and how many buckets there are. -/
theorem Found.congr {hm hm' : HashMap} {i : Nat} {bucket bucket' : List LLNode} (h : Found hm i bucket)
    (hlen : hm'.buckets.length = hm.buckets.length)
    (hkeys : bucket'.map LLNode.key = bucket.map LLNode.key) : Found hm' i bucket' := by
  have hold : ∀ node ∈ bucket', ∃ n ∈ bucket, n.key = node.key := by
    intro node hnode
    have hmem : node.key ∈ bucket.map LLNode.key := hkeys ▸ List.mem_map_of_mem hnode
    exact List.mem_map.mp hmem
  refine ⟨?_, ?_, by rw [hkeys]; exact h.keys⟩
  · intro node hnode
    obtain ⟨n, hn, hkey⟩ := hold node hnode
    rw [bucketIndex_congr hlen, ← hkey]
    exact h.index n hn
  · intro node hnode
    obtain ⟨n, hn, hkey⟩ := hold node hnode
    rw [← hkey]
    exact h.lower n hn

/-- The nodes of a bucket of a map that is merged into itself: each is found again. -/
theorem mergeBucket_self {pre post : Maps} {before after : List (List LLNode)} {back : List LLNode} :
    ∀ {front : List LLNode},
      Found ⟨before ++ (front ++ back) :: after⟩ before.length (front ++ back) →
        mergeBucket pre.length pre.length before.length back.length
            (pre ++ ⟨before ++ (front ++ back) :: after⟩ :: post)
          = pre ++ ⟨before ++ (front ++ back.map LLNode.twice) :: after⟩ :: post := by
  induction back with
  | nil =>
      intro front _
      rfl
  | cons node back ih =>
      intro front hfound
      have hbucket : bucketAt (pre ++ ⟨before ++ (front ++ node :: back) :: after⟩ :: post) pre.length
          before.length = front ++ node :: back :=
        bucketAt_of_some (getElem?_between ..) (getElem?_between ..)
      have hmem : node ∈ front ++ node :: back := by simp
      have hfront : ∀ n ∈ front, n.key ≠ node.key := by
        intro n hn
        have hnodup := hfound.keys
        rw [List.map_append, List.nodup_append] at hnodup
        exact hnodup.2.2 n.key (List.mem_map_of_mem hn) node.key (by simp)
      have hput : hmPutInc ⟨before ++ (front ++ node :: back) :: after⟩ node.key node.count
          = ⟨before ++ ((front ++ [node.twice]) ++ back) :: after⟩ := by
        rw [hmPutInc, hfound.index node hmem, modify_between, llPutInc_at (hfound.lower node hmem) hfront,
          List.append_assoc]
        rfl
      rw [List.length_cons, mergeBucket, hbucket, reverse_getElem?]
      simp only
      rw [modify_between, hput, ih (hfound.congr (by simp) (by simp [LLNode.twice])), List.map_cons,
        List.append_assoc]
      rfl

theorem mergeBuckets_self {pre post : Maps} {after : List (List LLNode)} :
    ∀ {before : List (List LLNode)},
      (∀ i bucket, (before ++ after)[i]? = some bucket → Found ⟨before ++ after⟩ i bucket) →
        mergeBuckets pre.length pre.length before.length (pre ++ ⟨before ++ after⟩ :: post)
          = pre ++ ⟨before.map (·.map LLNode.twice) ++ after⟩ :: post := by
  intro before
  induction before using List.reverseRecOn generalizing after with
  | nil => intro _; rfl
  | append_singleton before bucket ih =>
      intro hfound
      rw [List.append_assoc, List.singleton_append] at hfound ⊢
      have hbucket : bucketAt (pre ++ ⟨before.map (·.map LLNode.twice) ++ bucket :: after⟩ :: post)
          pre.length before.length = bucket := by
        have hget := getElem?_between (before.map (·.map LLNode.twice)) bucket after
        rw [List.length_map] at hget
        exact bucketAt_of_some (getElem?_between ..) hget
      have hthis : Found ⟨before.map (·.map LLNode.twice) ++ bucket :: after⟩
          (before.map (·.map LLNode.twice)).length bucket := by
        rw [List.length_map]
        exact (hfound before.length bucket (getElem?_between ..)).congr (by simp) rfl
      have hone := @mergeBucket_self pre post _ after bucket [] hthis
      rw [List.length_map, List.nil_append, List.nil_append] at hone
      rw [List.length_append, List.length_singleton, mergeBuckets, ih hfound, hbucket, hone]
      simp

/-- **Merging a map into itself** doubles each count, and moves nothing. -/
theorem hmMerge_self {maps : Maps} {dst : Nat} {hm : HashMap} (hdst : maps[dst]? = some hm)
    (hfound : ∀ i bucket, hm.buckets[i]? = some bucket → Found hm i bucket) :
    hmMerge maps dst dst = maps.modify dst fun d => ⟨d.buckets.map (·.map LLNode.twice)⟩ := by
  obtain ⟨pre, post, rfl, rfl⟩ := between_of_getElem? hdst
  have hself := @mergeBuckets_self pre post [] hm.buckets (by rw [List.append_nil]; exact hfound)
  rw [hmMerge, hdst, Option.elim_some, modify_between]
  rw [List.append_nil, List.append_nil] at hself
  exact hself

theorem Keeps.found {hm : HashMap} {m : Bytes → Option ℤ} (h : Keeps hm m) :
    ∀ i bucket, hm.buckets[i]? = some bucket → Found hm i bucket := by
  intro i bucket hi
  have hmem : bucket ∈ hm.buckets := List.mem_of_getElem? hi
  refine ⟨h.placed.index i bucket hi, ?_, ?_⟩
  · intro node hnode
    exact h.keys _ (mem_entries.mpr ⟨i, bucket, hi, hnode⟩)
  · have hkeys := h.lists.keys
    rw [entries_eq, pairs, List.map_map] at hkeys
    exact hkeys.sublist ((List.sublist_flatten_of_mem hmem).map _)

theorem Keeps.twice {hm : HashMap} {m : Bytes → Option ℤ} (h : Keeps hm m) :
    Keeps ⟨hm.buckets.map (·.map LLNode.twice)⟩ (plus m m) := by
  have hentries : HashMap.entries ⟨hm.buckets.map (·.map LLNode.twice)⟩
      = hm.entries.map fun t => (t.1, t.2 + t.2) := by
    rw [entries_eq, ← List.map_flatten, pairs_twice, entries_eq]
  refine ⟨⟨?_, ?_⟩, ?_, ?_⟩
  · rw [List.length_map]
    exact h.placed.buckets
  · intro i bucket hi node hnode
    rw [List.getElem?_map] at hi
    obtain ⟨old, hold, rfl⟩ := Option.map_eq_some_iff.mp hi
    obtain ⟨n, hn, rfl⟩ := List.mem_map.mp hnode
    rw [bucketIndex_congr (List.length_map ..)]
    exact h.placed.index i old hold n hn
  · intro t ht
    rw [hentries] at ht
    obtain ⟨u, hu, rfl⟩ := List.mem_map.mp ht
    exact h.keys u hu
  · rw [hentries, plus_self]
    exact h.lists.map fun n => n + n

end ChordDht.WordCount
