/-
`linked_list.c` and `hashmap.c`: counts under words.

A map is an array of buckets, each a linked list; a word is in the bucket its hash
says, in lower case.  `hm_put_inc` and `hm_set` are one update: they change the count of
the node with the key, or put a node in front.  `Holds` says what a map built by
`hm_put_inc` holds: each word once, with the sum of what was put under it.
-/
import ChordDht.Lib.CString
import ChordDht.Lib.FiniteMap
import ChordDht.Lib.Slots
import ChordDht.Lib.Tally

namespace ChordDht.WordCount

open Slots

/-- `ascii_tolower`. -/
def toLower (c : UInt8) : UInt8 := if 65 ≤ c ∧ c ≤ 90 then c + 32 else c

/-- `ll_strdup_lower`. -/
def lower (s : Bytes) : Bytes := s.map toLower

/-- `LLNode`, without the link. -/
structure LLNode where
  key : Bytes
  count : ℤ
  deriving DecidableEq, Repr

/-- `HashMap`; the number of buckets is their length. -/
structure HashMap where
  buckets : List (List LLNode)
  deriving DecidableEq, Repr

def djb2Hash (key : Bytes) : UInt64 :=
  key.foldl (fun hash c => (hash <<< 5) + hash + (toLower c).toUInt64) 5381

def bucketIndex (hm : HashMap) (key : Bytes) : Nat :=
  if hm.buckets.length = 0 then 0 else (djb2Hash key).toNat % hm.buckets.length

def hmCreate (nBuckets : Nat) : HashMap :=
  ⟨List.replicate (if nBuckets = 0 then 1024 else nBuckets) []⟩

/-- The first node with the key, if there is one, gets the count `f` makes of its own. -/
def llChange (key : Bytes) (f : ℤ → ℤ) : List LLNode → List LLNode
  | [] => []
  | node :: rest =>
      if node.key = key then { node with count := f node.count } :: rest
      else node :: llChange key f rest

/-- What `ll_put_inc` and `ll_set` do: change the node found, or put a new one in front. -/
def llUpdate (head : List LLNode) (key : Bytes) (f : ℤ → ℤ) (init : ℤ) : List LLNode :=
  if head.any (·.key == lower key) then llChange (lower key) f head else ⟨lower key, init⟩ :: head

def llPutInc (head : List LLNode) (key : Bytes) (delta : ℤ) : List LLNode :=
  llUpdate head key (· + delta) delta

def llSet (head : List LLNode) (key : Bytes) (count : ℤ) : List LLNode :=
  llUpdate head key (fun _ => count) count

def hmUpdate (hm : HashMap) (key : Bytes) (f : ℤ → ℤ) (init : ℤ) : HashMap :=
  ⟨hm.buckets.modify (bucketIndex hm key) fun head => llUpdate head key f init⟩

def hmPutInc (hm : HashMap) (key : Bytes) (delta : ℤ) : HashMap :=
  ⟨hm.buckets.modify (bucketIndex hm key) fun head => llPutInc head key delta⟩

def hmSet (hm : HashMap) (key : Bytes) (count : ℤ) : HashMap :=
  ⟨hm.buckets.modify (bucketIndex hm key) fun head => llSet head key count⟩

/-- `hm_get`: the count, if the key is there. -/
def hmGet (hm : HashMap) (key : Bytes) : Option ℤ :=
  ((hm.buckets.getD (bucketIndex hm key) []).find? (·.key == lower key)).map (·.count)

/-- What `hm_foreach` goes through, in its order. -/
def HashMap.entries (hm : HashMap) : List (Bytes × ℤ) :=
  hm.buckets.flatten.map fun node => (node.key, node.count)

/-- The letters and the counts of some entries together. -/
def weight (ts : List (Bytes × ℤ)) : ℤ := (ts.map fun t => (t.1.length : ℤ) + t.2).sum

@[simp] theorem weight_nil : weight [] = 0 := rfl

theorem weight_cons (t : Bytes × ℤ) (ts : List (Bytes × ℤ)) :
    weight (t :: ts) = t.1.length + t.2 + weight ts := List.sum_cons

theorem weight_append (ts us : List (Bytes × ℤ)) : weight (ts ++ us) = weight ts + weight us := by
  simp [weight]

/-- Entries with positive counts weigh something. -/
theorem weight_nonneg {ts : List (Bytes × ℤ)} (hpos : ∀ t ∈ ts, 0 < t.2) : 0 ≤ weight ts := by
  refine List.sum_nonneg ?_
  intro n hn
  obtain ⟨t, ht, rfl⟩ := List.mem_map.mp hn
  have hcount := hpos t ht
  show (0 : ℤ) ≤ t.1.length + t.2
  omega

/-- An entry weighs no more than all of them. -/
theorem entry_le_weight {ts : List (Bytes × ℤ)} (hpos : ∀ t ∈ ts, 0 < t.2) {t : Bytes × ℤ} (ht : t ∈ ts) :
    t.1.length + t.2 ≤ weight ts := by
  obtain ⟨front, back, rfl⟩ := List.append_of_mem ht
  have hfront := weight_nonneg fun u hu => hpos u (List.mem_append_left _ hu)
  have hback := weight_nonneg fun u hu => hpos u (List.mem_append_right _ (List.mem_cons_of_mem _ hu))
  rw [weight_append, weight_cons]
  omega

/-! ### Putting into a list of entries -/

/-- What one `hm_put_inc` does to a list of entries: `key` gets `delta` more. -/
structure Put (key : Bytes) (delta : ℤ) (ts us : List (Bytes × ℤ)) : Prop where
  tally : ∀ k, tally us k = tally ts k + if key = k then delta else 0
  keys : us.map Prod.fst = ts.map Prod.fst ∨
    (key ∉ ts.map Prod.fst ∧ (us.map Prod.fst).Perm (key :: ts.map Prod.fst))
  weight : weight us ≤ weight ts + key.length + delta
  pos : 0 < delta → (∀ t ∈ ts, 0 < t.2) → ∀ t ∈ us, 0 < t.2

/-- An entry has the key. -/
theorem Put.amid (front back : List (Bytes × ℤ)) (key : Bytes) (n delta : ℤ) :
    Put key delta (front ++ (key, n) :: back) (front ++ (key, n + delta) :: back) := by
  refine ⟨?_, Or.inl (by simp), ?_, ?_⟩
  · intro k
    rw [tally_append, tally_append, tally_cons, tally_cons]
    by_cases hk : key = k
    · simp only [hk, if_true]
      omega
    · simp only [hk, if_false]
      omega
  · simp only [weight_append, weight_cons]
    omega
  · intro hdelta hpos t ht
    rcases List.mem_append.mp ht with ht | ht
    · exact hpos t (List.mem_append_left _ ht)
    · rcases List.mem_cons.mp ht with rfl | ht
      · have hold := hpos (key, n) (List.mem_append_right _ (List.mem_cons_self ..))
        show 0 < n + delta
        exact Int.add_pos hold hdelta
      · exact hpos t (List.mem_append_right _ (List.mem_cons_of_mem _ ht))

/-- No entry has it, and one is put somewhere. -/
theorem Put.new {front back : List (Bytes × ℤ)} {key : Bytes}
    (hnot : key ∉ (front ++ back).map Prod.fst) (delta : ℤ) :
    Put key delta (front ++ back) (front ++ (key, delta) :: back) := by
  have hperm : (front ++ (key, delta) :: back).Perm ((key, delta) :: (front ++ back)) := List.perm_middle
  refine ⟨?_, Or.inr ⟨hnot, hperm.map Prod.fst⟩, ?_, ?_⟩
  · intro k
    simp only [tally_append, tally_cons]
    omega
  · simp only [weight_append, weight_cons]
    omega
  · intro hdelta hpos t ht
    rcases List.mem_cons.mp (hperm.subset ht) with rfl | ht
    · exact hdelta
    · exact hpos t ht

/-- An entry with another key stands in front. -/
theorem Put.there {key : Bytes} {delta : ℤ} {ts us : List (Bytes × ℤ)} (h : Put key delta ts us)
    {t : Bytes × ℤ} (hne : t.1 ≠ key) : Put key delta (t :: ts) (t :: us) := by
  refine ⟨?_, ?_, ?_, ?_⟩
  · intro k
    have htally := h.tally k
    rw [tally_cons, tally_cons]
    omega
  · rw [List.map_cons, List.map_cons]
    rcases h.keys with hkeys | ⟨hnot, hperm⟩
    · rw [hkeys]
      exact Or.inl rfl
    · refine Or.inr ⟨?_, (hperm.cons t.1).trans (List.Perm.swap key t.1 _)⟩
      rintro (_ | ⟨_, hmem⟩)
      · exact hne rfl
      · exact hnot hmem
  · have hweight := h.weight
    rw [weight_cons, weight_cons]
    omega
  · intro hdelta hpos u hu
    rcases List.mem_cons.mp hu with rfl | hu
    · exact hpos u (List.mem_cons_self ..)
    · exact h.pos hdelta (fun v hv => hpos v (List.mem_cons_of_mem _ hv)) u hu

/-- **A summary stays one.** -/
theorem Put.summary {key : Bytes} {delta : ℤ} {ts us : List (Bytes × ℤ)} (h : Put key delta ts us)
    (hdelta : 0 < delta) (hs : Summary ts) : Summary us := by
  refine ⟨?_, h.pos hdelta hs.pos⟩
  rcases h.keys with hkeys | ⟨hnot, hperm⟩
  · rw [hkeys]
    exact hs.keys
  · exact hperm.nodup_iff.mpr (List.nodup_cons.mpr ⟨hnot, hs.keys⟩)

/-! ### One list -/

def pairs (nodes : List LLNode) : List (Bytes × ℤ) := nodes.map fun node => (node.key, node.count)

theorem llChange_cases (key : Bytes) (f : ℤ → ℤ) (nodes : List LLNode) :
    (∃ front node back, nodes = front ++ node :: back ∧ node.key = key ∧ (∀ n ∈ front, n.key ≠ key) ∧
      llChange key f nodes = front ++ { node with count := f node.count } :: back) ∨
      ∀ n ∈ nodes, n.key ≠ key := by
  induction nodes with
  | nil => exact Or.inr fun n hn => absurd hn List.not_mem_nil
  | cons node rest ih =>
      rw [llChange]
      by_cases hkey : node.key = key
      · rw [if_pos hkey]
        exact Or.inl ⟨[], node, rest, rfl, hkey, fun n hn => absurd hn List.not_mem_nil, rfl⟩
      · rw [if_neg hkey]
        rcases ih with ⟨front, found, back, rfl, hfound, hfront, hnew⟩ | hnone
        · refine Or.inl ⟨node :: front, found, back, rfl, hfound, ?_, by rw [hnew]; rfl⟩
          intro n hn
          rcases List.mem_cons.mp hn with rfl | hn
          · exact hkey
          · exact hfront n hn
        · refine Or.inr ?_
          intro n hn
          rcases List.mem_cons.mp hn with rfl | hn
          · exact hkey
          · exact hnone n hn

/-- **An update of a list**: of the first node with the key, or of none. -/
theorem llUpdate_cases (head : List LLNode) (key : Bytes) (f : ℤ → ℤ) (init : ℤ) :
    (∃ front node back, head = front ++ node :: back ∧ node.key = lower key ∧
      (∀ n ∈ front, n.key ≠ lower key) ∧
      llUpdate head key f init = front ++ { node with count := f node.count } :: back) ∨
    ((∀ n ∈ head, n.key ≠ lower key) ∧ llUpdate head key f init = ⟨lower key, init⟩ :: head) := by
  unfold llUpdate
  rcases llChange_cases (lower key) f head with ⟨front, node, back, hhead, hkey, hfront, hnew⟩ | hnone
  · have hfound : head.any (·.key == lower key) = true := by
      rw [hhead]
      simp [hkey]
    rw [if_pos hfound]
    exact Or.inl ⟨front, node, back, hhead, hkey, hfront, hnew⟩
  · have hmiss : ¬ head.any (·.key == lower key) = true := by
      intro hc
      obtain ⟨node, hnode, hkey⟩ := List.any_eq_true.mp hc
      exact hnone node hnode (by simpa using hkey)
    rw [if_neg hmiss]
    exact Or.inr ⟨hnone, rfl⟩

theorem hmPutInc_eq (hm : HashMap) (key : Bytes) (delta : ℤ) :
    hmPutInc hm key delta = hmUpdate hm key (· + delta) delta := rfl

/-! ### The whole map -/

theorem toLower_toLower (c : UInt8) : toLower (toLower c) = toLower c := by
  by_cases h : 65 ≤ c ∧ c ≤ 90
  · have hsum : ¬ (65 ≤ c + 32 ∧ c + 32 ≤ 90) := by
      simp only [UInt8.le_iff_toNat_le, UInt8.toNat_add] at h ⊢
      have h65 : (65 : UInt8).toNat = 65 := rfl
      have h90 : (90 : UInt8).toNat = 90 := rfl
      have h32 : (32 : UInt8).toNat = 32 := rfl
      omega
    have hlow : toLower c = c + 32 := if_pos h
    rw [hlow]
    exact if_neg hsum
  · have hlow : toLower c = c := if_neg h
    rw [hlow, hlow]

theorem lower_lower (s : Bytes) : lower (lower s) = lower s := by
  simp [lower, toLower_toLower]

theorem lower_take (s : Bytes) (n : Nat) : lower (s.take n) = (lower s).take n := List.map_take ..

theorem djb2Hash_lower (key : Bytes) : djb2Hash (lower key) = djb2Hash key := by
  simp [djb2Hash, lower, List.foldl_map, toLower_toLower]

theorem bucketIndex_lower (hm : HashMap) (key : Bytes) :
    bucketIndex hm (lower key) = bucketIndex hm key := by
  rw [bucketIndex, djb2Hash_lower]
  rfl

/-- Each node is in the bucket of its key, and there are buckets. -/
structure HashMap.Placed (hm : HashMap) : Prop where
  buckets : 0 < hm.buckets.length
  index : ∀ i bucket, hm.buckets[i]? = some bucket → ∀ node ∈ bucket, bucketIndex hm node.key = i

theorem bucketIndex_lt {hm : HashMap} (h : 0 < hm.buckets.length) (key : Bytes) :
    bucketIndex hm key < hm.buckets.length := by
  unfold bucketIndex
  rw [if_neg (by omega)]
  exact Nat.mod_lt _ h

/-- The buckets before the one of the key, that one, and those behind it. -/
theorem hmUpdate_split (hm : HashMap) (h : 0 < hm.buckets.length) (key : Bytes) (f : ℤ → ℤ) (init : ℤ) :
    ∃ before bucket after, hm.buckets = before ++ bucket :: after ∧
      before.length = bucketIndex hm key ∧
      (hmUpdate hm key f init).buckets = before ++ llUpdate bucket key f init :: after := by
  obtain ⟨bucket, hbucket⟩ : ∃ bucket, hm.buckets[bucketIndex hm key]? = some bucket :=
    ⟨_, List.getElem?_eq_getElem (bucketIndex_lt h key)⟩
  obtain ⟨before, after, hold, hlen⟩ := between_of_getElem? hbucket
  refine ⟨before, bucket, after, hold, hlen, ?_⟩
  show hm.buckets.modify (bucketIndex hm key) _ = _
  rw [hold, ← hlen, modify_between]

theorem hmUpdate_length (hm : HashMap) (key : Bytes) (f : ℤ → ℤ) (init : ℤ) :
    (hmUpdate hm key f init).buckets.length = hm.buckets.length := List.length_modify ..

theorem bucketIndex_congr {hm hm' : HashMap} (h : hm.buckets.length = hm'.buckets.length) (key : Bytes) :
    bucketIndex hm key = bucketIndex hm' key := by
  unfold bucketIndex
  rw [h]

/-- No node of an updated list has a key that is neither old nor the one asked for. -/
theorem keys_llUpdate {head : List LLNode} {key : Bytes} {f : ℤ → ℤ} {init : ℤ} {node : LLNode}
    (h : node ∈ llUpdate head key f init) : node.key = lower key ∨ ∃ n ∈ head, n.key = node.key := by
  rcases llUpdate_cases head key f init with ⟨front, found, back, hhead, hkey, -, hnew⟩ | ⟨-, hnew⟩
  · rw [hnew] at h
    rcases List.mem_append.mp h with h | h
    · exact Or.inr ⟨node, by rw [hhead]; exact List.mem_append_left _ h, rfl⟩
    · rcases List.mem_cons.mp h with rfl | h
      · exact Or.inl hkey
      · refine Or.inr ⟨node, ?_, rfl⟩
        rw [hhead]
        exact List.mem_append_right _ (List.mem_cons_of_mem _ h)
  · rw [hnew] at h
    rcases List.mem_cons.mp h with rfl | h
    · exact Or.inl rfl
    · exact Or.inr ⟨node, h, rfl⟩

/-- A new key is put in front of no node of another bucket. -/
theorem hmUpdate_placed {hm : HashMap} (h : hm.Placed) (key : Bytes) (f : ℤ → ℤ) (init : ℤ) :
    (hmUpdate hm key f init).Placed := by
  have hlength := hmUpdate_length hm key f init
  refine ⟨by rw [hlength]; exact h.buckets, ?_⟩
  intro i bucket hi node hnode
  rw [bucketIndex_congr hlength]
  by_cases hkey : bucketIndex hm key = i
  · have hbucket : (hm.buckets[i]?).map (llUpdate · key f init) = some bucket := by
      rw [← hi, ← hkey]
      simp [hmUpdate]
    obtain ⟨old, hold, rfl⟩ := Option.map_eq_some_iff.mp hbucket
    rcases keys_llUpdate hnode with hlower | ⟨n, hn, hsame⟩
    · rw [hlower, bucketIndex_lower, hkey]
    · rw [← hsame]
      exact h.index i old hold n hn
  · have hbucket : hm.buckets[i]? = some bucket := by
      rw [← hi]
      simp [hmUpdate, hkey]
    exact h.index i bucket hbucket node hnode

/-- A node with the key is in no other bucket. -/
theorem HashMap.Placed.elsewhere {hm : HashMap} (h : hm.Placed) {key : Bytes} {i : Nat}
    {bucket : List LLNode} (hi : hm.buckets[i]? = some bucket) (hne : i ≠ bucketIndex hm key) :
    ∀ node ∈ bucket, node.key ≠ lower key := by
  intro node hnode hkey
  have hplace := h.index i bucket hi node hnode
  rw [hkey, bucketIndex_lower] at hplace
  exact hne hplace.symm

theorem key_notMem {key : Bytes} {nodes : List LLNode} :
    key ∉ (pairs nodes).map Prod.fst ↔ ∀ node ∈ nodes, node.key ≠ key := by
  simp [pairs]

/-- **What an update does to the entries**: it changes the count of the one with the key, or
puts one somewhere, when there was none. -/
theorem hmUpdate_entries {hm : HashMap} (h : hm.Placed) (key : Bytes) (f : ℤ → ℤ) (init : ℤ) :
    ∃ front back,
      (∃ n, hm.entries = front ++ (lower key, n) :: back ∧
        (hmUpdate hm key f init).entries = front ++ (lower key, f n) :: back) ∨
      (lower key ∉ hm.entries.map Prod.fst ∧ hm.entries = front ++ back ∧
        (hmUpdate hm key f init).entries = front ++ (lower key, init) :: back) := by
  obtain ⟨before, bucket, after, hold, hlen, hnew⟩ := hmUpdate_split hm h.buckets key f init
  have hentries : hm.entries = pairs before.flatten ++ (pairs bucket ++ pairs after.flatten) := by
    simp [HashMap.entries, hold, pairs]
  have hentries' : (hmUpdate hm key f init).entries
      = pairs before.flatten ++ (pairs (llUpdate bucket key f init) ++ pairs after.flatten) := by
    simp [HashMap.entries, hnew, pairs]
  rcases llUpdate_cases bucket key f init with ⟨front, node, back, hhead, hkey, -, hupd⟩ | ⟨hnone, hupd⟩
  · refine ⟨pairs before.flatten ++ pairs front, pairs back ++ pairs after.flatten, Or.inl ⟨node.count, ?_, ?_⟩⟩
    · rw [hentries, hhead, ← hkey]
      simp [pairs]
    · rw [hentries', hupd, ← hkey]
      simp [pairs]
  · refine ⟨pairs before.flatten, pairs bucket ++ pairs after.flatten, Or.inr ⟨?_, hentries, ?_⟩⟩
    · rw [hentries]
      simp only [List.map_append, List.mem_append, not_or]
      refine ⟨key_notMem.mpr ?_, key_notMem.mpr hnone, key_notMem.mpr ?_⟩
      · intro node hnode
        obtain ⟨other, hother, hnode⟩ := List.mem_flatten.mp hnode
        obtain ⟨i, hi, hget⟩ := List.getElem_of_mem hother
        refine @HashMap.Placed.elsewhere hm h key i other ?_ (by omega) node hnode
        rw [hold, List.getElem?_append_left hi, List.getElem?_eq_getElem hi, hget]
      · intro node hnode
        obtain ⟨other, hother, hnode⟩ := List.mem_flatten.mp hnode
        obtain ⟨i, hi, hget⟩ := List.getElem_of_mem hother
        refine @HashMap.Placed.elsewhere hm h key (before.length + 1 + i) other ?_ (by omega) node hnode
        have hshift : before.length + 1 + i - before.length = i + 1 := by omega
        rw [hold, List.getElem?_append_right (by omega), hshift, List.getElem?_cons_succ,
          List.getElem?_eq_getElem hi, hget]
    · rw [hentries', hupd]
      rfl

/-- **An update is one of the map**: of the value under the key, in lower case. -/
theorem hmUpdate_lists {hm : HashMap} {m : Bytes → Option ℤ} (h : hm.Placed) (hlists : Lists hm.entries m)
    (key : Bytes) (f : ℤ → ℤ) (init : ℤ) :
    Lists (hmUpdate hm key f init).entries
      (Function.update m (lower key) (some ((m (lower key)).elim init f))) := by
  obtain ⟨front, back, ⟨n, hold, hnew⟩ | ⟨hnot, hold, hnew⟩⟩ := hmUpdate_entries h key f init
  · have hn : m (lower key) = some n := (hlists.mem _ _).mp (by rw [hold]; simp)
    rw [hold] at hlists
    rw [hnew, hn]
    exact hlists.change (f n)
  · have hnone := (hlists.notMem_iff _).mp hnot
    rw [hold] at hlists
    rw [hnew, hnone]
    exact hlists.insert hnone init

/-- **`hm_put_inc`** puts under the key, and leaves all else. -/
theorem hmPutInc_put {hm : HashMap} (h : hm.Placed) (key : Bytes) (delta : ℤ) :
    Put (lower key) delta hm.entries (hmPutInc hm key delta).entries := by
  rw [hmPutInc_eq]
  obtain ⟨front, back, ⟨n, hold, hnew⟩ | ⟨hnot, hold, hnew⟩⟩ := hmUpdate_entries h key (· + delta) delta
  · rw [hold, hnew]
    exact Put.amid front back (lower key) n delta
  · rw [hnew]
    rw [hold] at hnot ⊢
    exact Put.new hnot delta

theorem mem_entries {hm : HashMap} {key : Bytes} {n : ℤ} :
    (key, n) ∈ hm.entries ↔ ∃ (i : Nat) (bucket : List LLNode), hm.buckets[i]? = some bucket ∧
      LLNode.mk key n ∈ bucket := by
  unfold HashMap.entries
  rw [List.mem_map]
  constructor
  · rintro ⟨node, hnode, hpair⟩
    obtain ⟨bucket, hbucket, hmem⟩ := List.mem_flatten.mp hnode
    obtain ⟨i, hi⟩ := List.mem_iff_getElem?.mp hbucket
    rw [Prod.mk.injEq] at hpair
    refine ⟨i, bucket, hi, ?_⟩
    rw [← hpair.1, ← hpair.2]
    exact hmem
  · rintro ⟨i, bucket, hi, hmem⟩
    exact ⟨_, List.mem_flatten.mpr ⟨bucket, List.mem_of_getElem? hi, hmem⟩, rfl⟩

/-- **`hm_get`** finds the entry of the key, however the key is spelled. -/
theorem hmGet_lists {hm : HashMap} {m : Bytes → Option ℤ} (h : hm.Placed) (hlists : Lists hm.entries m)
    (key : Bytes) : hmGet hm key = m (lower key) := by
  have hlt := bucketIndex_lt h.buckets key
  have hbucket : hm.buckets[bucketIndex hm key]? = some (hm.buckets.getD (bucketIndex hm key) []) := by
    rw [List.getD_eq_getElem?_getD, List.getElem?_eq_getElem hlt]
    rfl
  unfold hmGet
  cases hfind : (hm.buckets.getD (bucketIndex hm key) []).find? (·.key == lower key) with
  | some node =>
      have hkey : node.key = lower key := by simpa using List.find?_some hfind
      have hmem := mem_entries.mpr ⟨_, _, hbucket, List.mem_of_find?_eq_some hfind⟩
      rw [← hkey, (hlists.mem _ _).mp hmem]
      rfl
  | none =>
      refine ((hlists.notMem_iff _).mp ?_).symm
      intro hmem
      obtain ⟨⟨k, n⟩, hentry, hk⟩ := List.mem_map.mp hmem
      obtain ⟨i, bucket, hi, hnode⟩ := mem_entries.mp hentry
      have hk' : (LLNode.mk k n).key = lower key := hk
      by_cases hne : i = bucketIndex hm key
      · rw [hne, hbucket, Option.some.injEq] at hi
        exact List.find?_eq_none.mp hfind _ (hi ▸ hnode) (beq_iff_eq.mpr hk')
      · exact h.elsewhere hi hne _ hnode hk'

/-! ### A map that was filled -/

/-- The map holds what was put: each word once, with the sum of its amounts. -/
structure Holds (hm : HashMap) (ts : List (Bytes × ℤ)) : Prop where
  placed : hm.Placed
  summary : Summary hm.entries
  tally : ∀ k, tally hm.entries k = tally ts k
  weight : weight hm.entries ≤ weight ts

/-- What was put is found, and where nothing was put, nothing. -/
theorem Holds.hmGet {hm : HashMap} {ts : List (Bytes × ℤ)} (h : Holds hm ts) (key : Bytes) :
    (hmGet hm key).getD 0 = ChordDht.tally ts (lower key) := by
  rw [hmGet_lists h.placed h.summary.lists key, ← h.tally]
  by_cases hpos : 0 < ChordDht.tally hm.entries (lower key)
  · rw [if_pos hpos]
    rfl
  · have hnot := (tally_pos_iff h.summary.pos).not.mp hpos
    rw [if_neg hpos, tally_of_notMem hnot]
    rfl

theorem entries_create (n : Nat) : (hmCreate n).entries = [] := by
  simp [HashMap.entries, hmCreate]

theorem holds_create (n : Nat) : Holds (hmCreate n) [] := by
  have hlen : 0 < (hmCreate n).buckets.length := by
    unfold hmCreate
    rw [List.length_replicate]
    split <;> omega
  refine ⟨⟨hlen, ?_⟩, ?_, ?_, ?_⟩
  · intro i bucket hi node hnode
    have hempty := List.eq_of_mem_replicate (List.mem_of_getElem? hi)
    rw [hempty] at hnode
    exact absurd hnode List.not_mem_nil
  · rw [entries_create]
    exact ⟨List.nodup_nil, fun t ht => absurd ht List.not_mem_nil⟩
  · intro k
    rw [entries_create]
  · rw [entries_create]

/-- **Putting something more.** -/
theorem Holds.put {hm : HashMap} {ts : List (Bytes × ℤ)} (h : Holds hm ts) (key : Bytes) {delta : ℤ}
    (hdelta : 0 < delta) : Holds (hmPutInc hm key delta) (ts ++ [(lower key, delta)]) := by
  have hput := hmPutInc_put h.placed key delta
  refine ⟨by rw [hmPutInc_eq]; exact hmUpdate_placed h.placed key _ _, hput.summary hdelta h.summary, ?_, ?_⟩
  · intro k
    rw [hput.tally, h.tally, tally_append, tally_cons, tally_nil, add_zero]
  · have hold := h.weight
    have hnew := hput.weight
    rw [weight_append, weight_cons, weight_nil]
    simp only
    omega

/-- Putting all of a list, one after the other. -/
def putAll (hm : HashMap) (ts : List (Bytes × ℤ)) : HashMap :=
  ts.foldl (fun hm t => hmPutInc hm t.1 t.2) hm

theorem Holds.putAll : ∀ {us ts : List (Bytes × ℤ)} {hm : HashMap}, Holds hm ts →
    (∀ u ∈ us, lower u.1 = u.1 ∧ 0 < u.2) → Holds (putAll hm us) (ts ++ us) := by
  intro us
  induction us with
  | nil =>
      intro ts hm h _
      rwa [List.append_nil]
  | cons u us ih =>
      intro ts hm h hus
      obtain ⟨hlower, hpos⟩ := hus u (List.mem_cons_self ..)
      have hput := h.put u.1 hpos
      rw [hlower] at hput
      have hrest := ih hput fun v hv => hus v (List.mem_cons_of_mem _ hv)
      rwa [List.append_assoc, List.singleton_append] at hrest

end ChordDht.WordCount
