/-
A map in memory from `hm_create` to `hm_free`.

`Serves` is what the map is for: a finite map of counts, by keys in lower case, in which an
update may fail for want of memory, but only one of a key that is new.  Whatever allocations
fail, a program that creates a map, makes any calls on it and frees it leaves the heap with the
blocks that were there before, provided that no count is added up to more than an `int` holds;
and as long as `ll_find` has its copy of the key, the replies are those of such a map.
-/
import ChordDht.WordCount.Calls
import ChordDht.WordCount.InMemory

namespace ChordDht.WordCount.Pointers

open Blocks Outcome

/-- The reply of a finite map of counts, and the map after the call. -/
inductive Serves (m : Counts) : MapCall → Reply → Counts → Prop
  | putInc (key : Bytes) (delta : ℤ) : Serves m (.putInc key delta) (.status true)
      (Function.update m (lower key) (some ((m (lower key)).getD 0 + delta)))
  | putIncFails (key : Bytes) (delta : ℤ) (hnew : m (lower key) = none) :
      Serves m (.putInc key delta) (.status false) m
  | set (key : Bytes) (count : ℤ) : Serves m (.set key count) (.status true)
      (Function.update m (lower key) (some count))
  | setFails (key : Bytes) (count : ℤ) (hnew : m (lower key) = none) : Serves m (.set key count) (.status false) m
  | get (key : Bytes) : Serves m (.get key) (.count (m (lower key))) m
  | entryCount (entries : Nat) (hsize : {k | (m k).isSome}.encard = entries) :
      Serves m .entryCount (.size entries) m
  | foreach (entries : List (Bytes × ℤ)) (hlists : Lists entries m) : Serves m .foreach (.visited entries) m
  | clear : Serves m .clear .done Counts.empty

/-- The replies to calls one after another. -/
inductive ServesAll : Counts → List MapCall → List Reply → Prop
  | nil (m : Counts) : ServesAll m [] []
  | cons {m m' : Counts} {call : MapCall} {calls : List MapCall} {reply : Reply} {replies : List Reply}
      (hcall : Serves m call reply m') (hcalls : ServesAll m' calls replies) :
      ServesAll m (call :: calls) (reply :: replies)

/-! ### Runs -/

def runAll (h : Heap Block) (hm : Nat) : List MapCall → Outcome (List Reply × Heap Block)
  | [] => .returns ([], h)
  | call :: calls => do
      let r ← call.run h hm
      let others ← runAll r.2 hm calls
      return (r.1 :: others.1, others.2)

/-- A map is created, used and freed; there are no replies if it could not be created. -/
def lifetime (h : Heap Block) (nBuckets : Nat) (calls : List MapCall) : Outcome (Option (List Reply) × Heap Block) := do
  let hm ← hmCreate h nBuckets
  if hm.1 = 0 then return (none, hm.2)
  else do
    let replies ← runAll hm.2 hm.1 calls
    let h ← hmFree replies.2 hm.1
    return (some replies.1, h)

/-- The calls on the map of lists: the replies, and the questions then. -/
def repliesOn (g : Nat → Bool) (n : Nat) (m : HashMap) : List MapCall → List Reply × Nat
  | [] => ([], n)
  | call :: calls =>
      let r := call.onMap g n m
      let others := repliesOn g r.2.2 r.2.1 calls
      (r.1 :: others.1, others.2)

def MapCall.searches : MapCall → Bool
  | .putInc _ _ => true
  | .set _ _ => true
  | .get _ => true
  | .entryCount => false
  | .foreach => false
  | .clear => false

/-- `ll_find` has its copy of the key in each of the calls. -/
def Copied (g : Nat → Bool) (n : Nat) (m : HashMap) : List MapCall → Prop
  | [] => True
  | call :: calls => (call.searches = true → g n = true) ∧
      Copied g (call.onMap g n m).2.2 (call.onMap g n m).2.1 calls

instance decidableCopied (g : Nat → Bool) : ∀ (n : Nat) (m : HashMap) (calls : List MapCall),
    Decidable (Copied g n m calls)
  | _, _, [] => .isTrue trivial
  | n, m, call :: calls =>
      have := decidableCopied g (call.onMap g n m).2.2 (call.onMap g n m).2.1 calls
      inferInstanceAs (Decidable (_ ∧ _))

/-- No `hm_put_inc` adds up to more than an `int` holds. -/
def SumsFit (g : Nat → Bool) (n : Nat) (m : HashMap) : List MapCall → Prop
  | [] => True
  | call :: calls => call.Sums g n m ∧ SumsFit g (call.onMap g n m).2.2 (call.onMap g n m).2.1 calls

instance decidableSumsFit (g : Nat → Bool) : ∀ (n : Nat) (m : HashMap) (calls : List MapCall),
    Decidable (SumsFit g n m calls)
  | _, _, [] => .isTrue trivial
  | n, m, call :: calls =>
      have := decidableSumsFit g (call.onMap g n m).2.2 (call.onMap g n m).2.1 calls
      inferInstanceAs (Decidable (_ ∧ _))

variable {h : Heap Block} {g : Nat → Bool} {n hm : Nat} {bs : Multiset (Nat × Block)} {m : HashMap} {counts : Counts}

/-- **Any calls in memory** are calls on the map. -/
theorem runAll_spec (calls : List MapCall) : ∀ {n : Nat} {h : Heap Block} {m : HashMap}, Laid h g n hm m bs →
    SumsFit g n m calls → ∃ h' m', runAll h hm calls = .returns ((repliesOn g n m calls).1, h') ∧
      Laid h' g (repliesOn g n m calls).2 hm m' bs := by
  induction calls with
  | nil =>
      intro n h m hlaid _
      exact ⟨h, m, rfl, hlaid⟩
  | cons call calls ih =>
      intro n h m hlaid hsums
      obtain ⟨h1, hrun, hlaid1⟩ := MapCall.run_spec hlaid call hsums.1
      obtain ⟨h', m', hall, hlaid'⟩ := ih hlaid1 hsums.2
      refine ⟨h', m', ?_, hlaid'⟩
      rw [runAll, hrun, returns_bind, hall]
      rfl

/-! ### Creating and freeing -/

/-- Without memory for the map and its array there is no map. -/
theorem hmCreate_cases (nBuckets : Nat) (his : h.Is g n bs) :
    (∃ h' k, hmCreate h nBuckets = .returns (0, h') ∧ h'.Is g k bs ∧ ∃ j, n ≤ j ∧ g j = false) ∨
    ∃ hm h', hm ≠ 0 ∧ hmCreate h nBuckets = .returns (hm, h') ∧
      Laid h' g (n + 2) hm (WordCount.hmCreate nBuckets) bs := by
  rw [hmCreate]
  cases hg : g n with
  | false =>
      obtain ⟨hnull, his'⟩ := his.malloc_refused hg (.map 0 0)
      rw [if_pos hnull]
      exact Or.inl ⟨_, n + 1, rfl, his', n, le_rfl, hg⟩
  | true =>
      obtain ⟨haddr, hmap⟩ := his.malloc_granted hg (.map 0 0)
      rw [if_neg (by rw [haddr]; exact Nat.succ_ne_zero n), haddr]
      cases hg' : g (n + 1) with
      | false =>
          obtain ⟨hnull, hboth⟩ := hmap.malloc_refused hg'
            (.heads (List.replicate (if nBuckets = 0 then 1024 else nBuckets) 0))
          obtain ⟨h', hfree, hdone⟩ := hboth.free
          rw [if_pos hnull, hfree]
          exact Or.inl ⟨h', n + 2, rfl, hdone, n + 1, Nat.le_succ n, hg'⟩
      | true =>
          obtain ⟨haddr', hboth⟩ := hmap.malloc_granted hg'
            (.heads (List.replicate (if nBuckets = 0 then 1024 else nBuckets) 0))
          rw [add_left_comm] at hboth
          obtain ⟨h', hstore, hdone⟩ := hboth.store (.map (n + 2) (if nBuckets = 0 then 1024 else nBuckets))
          rw [if_neg (by rw [haddr']; exact Nat.succ_ne_zero _), haddr']
          refine Or.inr ⟨n + 1, h', Nat.succ_ne_zero n, ?_, n + 2,
            List.replicate (if nBuckets = 0 then 1024 else nBuckets) [], ?_, ?_, ?_⟩
          · rw [hstore]
            rfl
          · rw [view, List.map_replicate]
            rfl
          · intro hnil
            have hsize := congrArg List.length hnil
            rw [List.length_replicate, List.length_nil] at hsize
            by_cases hzero : nBuckets = 0
            · rw [if_pos hzero] at hsize
              exact absurd hsize (by decide)
            · rw [if_neg hzero] at hsize
              exact hzero hsize
          · have hblocks : mapBlocks (n + 1) (n + 2) (List.replicate (if nBuckets = 0 then 1024 else nBuckets) []) =
                {(n + 1, .map (n + 2) (if nBuckets = 0 then 1024 else nBuckets))} +
                  {(n + 2, .heads (List.replicate (if nBuckets = 0 then 1024 else nBuckets) 0))} := by
              rw [mapBlocks, List.map_replicate, List.map_replicate, List.sum_replicate, List.length_replicate, blocks,
                smul_zero, add_zero]
              rfl
            rw [hblocks, add_assoc]
            exact hdone

/-- **All blocks of the map are given back**, each once. -/
theorem hmFree_spec (hlaid : Laid h g n hm m bs) : ∃ h', hmFree h hm = .returns h' ∧ h'.Is g n bs := by
  obtain ⟨buckets, lists, rfl, -, his⟩ := hlaid
  have hopen := opened his
  rw [mapBlocks_lists] at his
  obtain ⟨h1, hrun, his1⟩ := releaseFrom_spec false lists [] his
  obtain ⟨h2, hfree2, his2⟩ := his1.free
  obtain ⟨h3, hfree3, his3⟩ := his2.free
  rw [List.length_nil] at hrun
  refine ⟨h3, ?_, his3⟩
  rw [hmFree, if_neg hopen.there, hopen.map, returns_bind, if_neg hopen.filled, hrun, returns_bind, hfree2,
    returns_bind]
  exact hfree3

/-! ### What the replies mean -/

/-- An update happens, or it fails, and then the key is new. -/
theorem putWith_cases (hg : g n = true) (hkeeps : Keeps m counts) (key : Bytes) (f : ℤ → ℤ) (init : ℤ) :
    ∃ k, n ≤ k ∧ (putWith g n m key f init = (true, WordCount.hmUpdate m key f init, k) ∨
      putWith g n m key f init = (false, m, k) ∧ counts (lower key) = none ∧ ∃ j, n ≤ j ∧ g j = false) := by
  obtain ⟨k, hk, hdone | ⟨hfails, hany, hrefused⟩⟩ := updateWith_cases hg (listOf m key) key f init
  · refine ⟨k, hk, Or.inl ?_⟩
    rw [putWith, hdone, WordCount.hmUpdate, List.modify_eq_set, ← List.getD_eq_getElem?_getD]
    rfl
  · refine ⟨k, hk, Or.inr ⟨?_, ?_, hrefused⟩⟩
    · have hsame : m.buckets.set (WordCount.bucketIndex m key) (listOf m key) = m.buckets := by
        rw [listOf, List.getD_eq_getElem?_getD,
          List.getElem?_eq_getElem (WordCount.bucketIndex_lt hkeeps.placed.buckets key), Option.getD_some,
          List.set_getElem_self]
      rw [putWith, hfails, hsame]
    · rw [← hmGet_lists hkeeps.placed hkeeps.lists key, WordCount.hmGet, Option.map_eq_none_iff]
      have hnone : (listOf m key).find? (·.key == lower key) = none := by simpa using hany
      exact hnone

/-- **One call** is served, and if it fails, an allocation was refused. -/
theorem MapCall.onMap_serves (hkeeps : Keeps m counts) (call : MapCall) (hcopy : call.searches = true → g n = true) :
    n ≤ (call.onMap g n m).2.2 ∧ ((call.onMap g n m).1 = .status false → ∃ j, n ≤ j ∧ g j = false) ∧
      ∃ counts', Serves counts call (call.onMap g n m).1 counts' ∧ Keeps (call.onMap g n m).2.1 counts' := by
  cases call with
  | putInc key delta =>
      obtain ⟨k, hk, hput | ⟨hput, hnew, hrefused⟩⟩ := putWith_cases (hcopy rfl) hkeeps key (· + delta) delta
      · rw [onMap, hput, ← hmPutInc_eq]
        exact ⟨hk, (fun h => by cases h), _, .putInc key delta, hkeeps.putInc key delta⟩
      · rw [onMap, hput]
        exact ⟨hk, fun _ => hrefused, counts, .putIncFails key delta hnew, hkeeps⟩
  | set key count =>
      obtain ⟨k, hk, hput | ⟨hput, hnew, hrefused⟩⟩ := putWith_cases (hcopy rfl) hkeeps key (fun _ => count) count
      · rw [onMap, hput]
        exact ⟨hk, (fun h => by cases h), _, .set key count, hkeeps.set key count⟩
      · rw [onMap, hput]
        exact ⟨hk, fun _ => hrefused, counts, .setFails key count hnew, hkeeps⟩
  | get key =>
      have hcount : getWith g n (listOf m key) key = counts (lower key) := by
        rw [getWith, if_pos (hcopy rfl)]
        exact hmGet_lists hkeeps.placed hkeeps.lists key
      rw [onMap, hcount]
      exact ⟨Nat.le_succ n, (fun h => by cases h), counts, .get key, hkeeps⟩
  | entryCount =>
      exact ⟨le_rfl, (fun h => by cases h), counts, .entryCount _ hkeeps.refines.count, hkeeps⟩
  | foreach => exact ⟨le_rfl, (fun h => by cases h), counts, .foreach _ hkeeps.lists, hkeeps⟩
  | clear => exact ⟨le_rfl, (fun h => by cases h), Counts.empty, .clear, hkeeps.clear⟩

/-- **A run is served** as long as the copies are there. -/
theorem repliesOn_serves (calls : List MapCall) : ∀ {n : Nat} {m : HashMap} {counts : Counts}, Keeps m counts →
    Copied g n m calls → ServesAll counts calls (repliesOn g n m calls).1 := by
  induction calls with
  | nil => exact fun _ _ => .nil _
  | cons call calls ih =>
      intro n m counts hkeeps hcopied
      obtain ⟨-, -, counts', hserves, hkeeps'⟩ := MapCall.onMap_serves hkeeps call hcopied.1
      exact .cons hserves (ih hkeeps' hcopied.2)

/-- With memory the copies are there, and no call fails. -/
theorem copied_of_granted (calls : List MapCall) : ∀ {n : Nat} {m : HashMap} {counts : Counts}, Keeps m counts →
    (∀ k, n ≤ k → g k = true) → Copied g n m calls ∧ Reply.status false ∉ (repliesOn g n m calls).1 := by
  induction calls with
  | nil => exact fun _ _ => ⟨trivial, List.not_mem_nil⟩
  | cons call calls ih =>
      intro n m counts hkeeps hg
      obtain ⟨hle, hfails, counts', -, hkeeps'⟩ := MapCall.onMap_serves hkeeps call fun _ => hg n le_rfl
      obtain ⟨hcopied, hnone⟩ := ih hkeeps' fun k hk => hg k (hle.trans hk)
      refine ⟨⟨fun _ => hg n le_rfl, hcopied⟩, ?_⟩
      intro hmem
      rcases List.mem_cons.mp hmem with hfirst | hrest
      · obtain ⟨j, hj, hrefused⟩ := hfails hfirst.symm
        rw [hg j hj] at hrefused
        cases hrefused
      · exact hnone hrest

/-! ### From `hm_create` to `hm_free` -/

/-- **Nothing is left of a map that was freed**, and while it lasts it serves its calls. -/
theorem lifetime_leaves_nothing (his : h.Is g n bs) (nBuckets : Nat) (calls : List MapCall)
    (hsums : SumsFit g (n + 2) (WordCount.hmCreate nBuckets) calls) :
    ∃ replies h' k, lifetime h nBuckets calls = .returns (replies, h') ∧ h'.Is g k bs ∧
      (Copied g (n + 2) (WordCount.hmCreate nBuckets) calls →
        ∀ rs, replies = some rs → ServesAll Counts.empty calls rs) ∧
      ((∀ k, n ≤ k → g k = true) →
        ∃ rs, replies = some rs ∧ ServesAll Counts.empty calls rs ∧ Reply.status false ∉ rs) := by
  have hkeeps := keeps_create nBuckets
  rcases hmCreate_cases nBuckets his with ⟨h', k, hcreate, hdone, j, hj, hrefused⟩ | ⟨hm, h1, hthere, hcreate, hlaid⟩
  · refine ⟨none, h', k, ?_, hdone, ?_, ?_⟩
    · rw [lifetime, hcreate]
      rfl
    · intro _ rs hrs
      cases hrs
    · intro hg
      rw [hg j hj] at hrefused
      cases hrefused
  · obtain ⟨h2, m, hrun, hlaid'⟩ := runAll_spec calls hlaid hsums
    obtain ⟨h', hfree, hdone⟩ := hmFree_spec hlaid'
    refine ⟨some (repliesOn g (n + 2) (WordCount.hmCreate nBuckets) calls).1, h', _, ?_, hdone, ?_, ?_⟩
    · rw [lifetime, hcreate, returns_bind, if_neg hthere, hrun, returns_bind, hfree]
      rfl
    · intro hcopied rs hrs
      rw [← Option.some.inj hrs]
      exact repliesOn_serves calls hkeeps hcopied
    · intro hg
      obtain ⟨hcopied, hnone⟩ := copied_of_granted (n := n + 2) calls hkeeps fun k hk => hg k (by omega)
      exact ⟨_, rfl, repliesOn_serves calls hkeeps hcopied, hnone⟩

/-- There is no memory for the second key, and another block stays where it is. -/
theorem lifetime_leaves_nothing_refused :
    let other : Nat × Block := (1, .text [120])
    let h : Heap Block := ((⟨fun _ => none, 0, fun k => k != 7⟩ : Heap Block).malloc other.2).2
    let calls : List MapCall := [.putInc [97] 1, .putInc [98] 1, .putInc [65] 2, .get [97], .foreach, .entryCount]
    let replies : List Reply :=
      [.status true, .status false, .status true, .count (some 3), .visited [([97], 3)], .size 1]
    ∃ h' k, lifetime h 1 calls = .returns (some replies, h') ∧ h'.Is (fun k => k != 7) k {other} ∧
      ServesAll Counts.empty calls replies := by
  have hempty : (⟨fun _ => none, 0, fun k => k != 7⟩ : Heap Block).Is (fun k => k != 7) 0 0 :=
    ⟨rfl, rfl, Multiset.nodup_zero, fun a v => by simp, fun t ht => absurd ht (Multiset.notMem_zero t)⟩
  obtain ⟨-, hone⟩ := hempty.malloc_granted rfl (.text [120])
  rw [add_zero] at hone
  obtain ⟨replies, h', k, hrun, hdone, hserves, -⟩ := lifetime_leaves_nothing hone 1
    [.putInc [97] 1, .putInc [98] 1, .putInc [65] 2, .get [97], .foreach, .entryCount] (by decide +kernel)
  have hreplies : (lifetime ((⟨fun _ => none, 0, fun k => k != 7⟩ : Heap Block).malloc (.text [120])).2 1
      [.putInc [97] 1, .putInc [98] 1, .putInc [65] 2, .get [97], .foreach, .entryCount] >>= fun r => .returns r.1) =
      .returns (some [.status true, .status false, .status true, .count (some 3), .visited [([97], 3)], .size 1]) := by
    decide +kernel
  rw [hrun, returns_bind, Outcome.returns.injEq] at hreplies
  subst hreplies
  exact ⟨h', k, hrun, hdone, hserves (by decide +kernel) _ rfl⟩

end ChordDht.WordCount.Pointers
