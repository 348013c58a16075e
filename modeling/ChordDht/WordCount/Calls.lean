/-
Any calls on any maps.

A program creates maps and calls `hm_put_inc`, `hm_set`, `hm_merge` and `hm_clear` on
them, in any order.  Each call has its meaning on the list of finite maps that the maps in
memory stand for.  One step keeps the two lists together, and so does a whole run.
-/
import ChordDht.WordCount.Maps

namespace ChordDht.WordCount

/-- A call, on maps known by the order in which they were created. -/
inductive Call where
  | create (nBuckets : Nat)
  | putInc (hm : Nat) (key : Bytes) (delta : ℤ)
  | set (hm : Nat) (key : Bytes) (count : ℤ)
  | merge (dst src : Nat)
  | clear (hm : Nat)
  deriving DecidableEq, Repr

/-- The map that the call writes. -/
def Call.target : Call → Option Nat
  | .create _ => none
  | .putInc hm _ _ => some hm
  | .set hm _ _ => some hm
  | .merge dst _ => some dst
  | .clear hm => some hm

/-- The call, if the maps it is for were created. -/
def Call.step (maps : Maps) : Call → Option Maps
  | .create nBuckets => some (maps ++ [hmCreate nBuckets])
  | .putInc hm key delta =>
      if hm < maps.length then some (maps.modify hm fun h => hmPutInc h key delta) else none
  | .set hm key count =>
      if hm < maps.length then some (maps.modify hm fun h => hmSet h key count) else none
  | .merge dst src =>
      if dst < maps.length ∧ src < maps.length then some (hmMerge maps dst src) else none
  | .clear hm => if hm < maps.length then some (maps.modify hm hmClear) else none

/-- A finite map of counts, by keys in lower case. -/
abbrev Counts := Bytes → Option ℤ

def Counts.empty : Counts := fun _ => none

/-- What the call is for: the finite maps, by the same order. -/
def Call.spec (ms : List Counts) : Call → List Counts
  | .create _ => ms ++ [Counts.empty]
  | .putInc hm key delta =>
      ms.modify hm fun m => Function.update m (lower key) (some ((m (lower key)).getD 0 + delta))
  | .set hm key count => ms.modify hm fun m => Function.update m (lower key) (some count)
  | .merge dst src =>
      match ms[src]? with
      | some more => ms.modify dst fun m => plus m more
      | none => ms
  | .clear hm => ms.modify hm fun _ => Counts.empty

/-- What can be seen of a map that stands for `m`. -/
structure Refines (hm : HashMap) (m : Counts) : Prop where
  lower : ∀ bucket ∈ hm.buckets, ∀ node ∈ bucket, ∀ c ∈ node.key, ¬ (65 ≤ c ∧ c ≤ 90)
  index : ∀ i bucket, hm.buckets[i]? = some bucket → ∀ node ∈ bucket,
    (djb2Hash node.key).toNat % hm.buckets.length = i
  distinct : (hm.buckets.flatten.map LLNode.key).Nodup
  get : ∀ key, hmGet hm key = m (WordCount.lower key)
  count : {k | (m k).isSome}.encard = hmEntryCount hm
  visits : ∃ ts, Lists ts m ∧ ∀ {σ : Type} (fn : Bytes → ℤ → σ → σ) (ctx : σ),
    hmForeach fn hm ctx = ts.foldl (fun ctx t => fn t.1 t.2 ctx) ctx

theorem notUpper_of_lower {s : Bytes} (h : lower s = s) : ∀ c ∈ s, ¬ (65 ≤ c ∧ c ≤ 90) := by
  induction s with
  | nil => exact fun c hc => absurd hc List.not_mem_nil
  | cons c s ih =>
      rw [lower, List.map_cons, List.cons.injEq] at h
      intro d hd
      rcases List.mem_cons.mp hd with rfl | hd
      · intro hupper
        have hsame := h.1
        rw [toLower, if_pos hupper, add_eq_left] at hsame
        exact absurd hsame (by decide)
      · exact ih h.2 d hd

theorem Keeps.refines {hm : HashMap} {m : Counts} (h : Keeps hm m) : Refines hm m := by
  have hkeys := h.lists.keys
  rw [entries_eq, pairs, List.map_map] at hkeys
  refine ⟨?_, ?_, hkeys, hmGet_lists h.placed h.lists, ?_, hm.entries, h.lists, ?_⟩
  · intro bucket hbucket node hnode
    obtain ⟨i, hi⟩ := List.mem_iff_getElem?.mp hbucket
    exact notUpper_of_lower (h.keys _ (mem_entries.mpr ⟨i, bucket, hi, hnode⟩))
  · intro i bucket hi node hnode
    have hindex := h.placed.index i bucket hi node hnode
    have hbuckets := h.placed.buckets
    rwa [bucketIndex, if_neg (by omega)] at hindex
  · rw [h.lists.encard_eq, hmEntryCount_eq]
  · intro σ fn ctx
    exact hmForeach_eq fn hm ctx

/-! ### Runs -/

theorem forall₂_modify {α β : Type} {R : α → β → Prop} {as : List α} {bs : List β} (h : List.Forall₂ R as bs)
    {f : α → α} {g : β → β} {i : Nat} (hfg : ∀ a b, bs[i]? = some b → R a b → R (f a) (g b)) :
    List.Forall₂ R (as.modify i f) (bs.modify i g) := by
  induction h generalizing i with
  | nil => simp
  | cons hab hrest ih =>
      cases i with
      | zero => exact .cons (hfg _ _ rfl hab) hrest
      | succ i => exact .cons hab (ih fun a b hb => hfg a b hb)

theorem forall₂_getElem? {α β : Type} {R : α → β → Prop} {as : List α} {bs : List β}
    (h : List.Forall₂ R as bs) {i : Nat} {a : α} (hi : as[i]? = some a) : ∃ b, bs[i]? = some b ∧ R a b := by
  induction h generalizing i with
  | nil => simp at hi
  | cons hab hrest ih =>
      cases i with
      | zero =>
          rw [List.getElem?_cons_zero, Option.some.injEq] at hi
          exact ⟨_, rfl, hi ▸ hab⟩
      | succ i => exact ih hi

/-- **One call** keeps the maps in memory those of the finite maps. -/
theorem step_keeps {maps maps' : Maps} {ms : List Counts} {call : Call}
    (h : List.Forall₂ Keeps maps ms) (hstep : call.step maps = some maps') :
    List.Forall₂ Keeps maps' (call.spec ms) := by
  cases call with
  | create nBuckets =>
      rw [Call.step, Option.some.injEq] at hstep
      rw [← hstep]
      exact List.rel_append h (.cons (keeps_create nBuckets) .nil)
  | putInc hm key delta =>
      rw [Call.step, Option.ite_none_right_eq_some, Option.some.injEq] at hstep
      rw [← hstep.2]
      exact forall₂_modify h fun _ _ _ hkeeps => hkeeps.putInc key delta
  | set hm key count =>
      rw [Call.step, Option.ite_none_right_eq_some, Option.some.injEq] at hstep
      rw [← hstep.2]
      exact forall₂_modify h fun _ _ _ hkeeps => hkeeps.set key count
  | merge dst src =>
      rw [Call.step, Option.ite_none_right_eq_some, Option.some.injEq] at hstep
      obtain ⟨⟨-, hsrc⟩, rfl⟩ := hstep
      obtain ⟨more, hmore, hkeeps⟩ := forall₂_getElem? h (List.getElem?_eq_getElem hsrc)
      rw [Call.spec, hmore]
      by_cases hne : dst = src
      · -- the map is read while it is written
        subst hne
        rw [hmMerge_self (List.getElem?_eq_getElem hsrc) hkeeps.found]
        refine forall₂_modify h ?_
        intro d m hm hd
        rw [hmore, Option.some.injEq] at hm
        rw [hm]
        exact hd.twice
      · rw [hmMerge_other hne (List.getElem?_eq_getElem hsrc)]
        exact forall₂_modify h fun _ _ _ hdst => hdst.putAll hkeeps.keys hkeeps.lists
  | clear hm =>
      rw [Call.step, Option.ite_none_right_eq_some, Option.some.injEq] at hstep
      rw [← hstep.2]
      exact forall₂_modify h fun _ _ _ hkeeps => hkeeps.clear

theorem run_keeps {calls : List Call} {maps maps' : Maps} {ms : List Counts}
    (h : List.Forall₂ Keeps maps ms) (hrun : calls.foldlM Call.step maps = some maps') :
    List.Forall₂ Keeps maps' (calls.foldl Call.spec ms) := by
  induction calls generalizing maps ms with
  | nil =>
      rw [List.foldlM_nil, Option.pure_def, Option.some.injEq] at hrun
      rwa [← hrun]
  | cons call calls ih =>
      obtain ⟨maps₁, hstep, hrest⟩ := Option.bind_eq_some_iff.mp hrun
      exact ih (step_keeps h hstep) hrest

/-- A call writes no map but its own. -/
theorem step_getElem? {maps maps' : Maps} {ms : List Counts} {call : Call}
    (h : List.Forall₂ Keeps maps ms) (hstep : call.step maps = some maps') {i : Nat}
    (hi : i < maps.length) (hne : call.target ≠ some i) : maps'[i]? = maps[i]? := by
  cases call with
  | create nBuckets =>
      rw [Call.step, Option.some.injEq] at hstep
      rw [← hstep, List.getElem?_append_left hi]
  | putInc hm key delta =>
      rw [Call.step, Option.ite_none_right_eq_some, Option.some.injEq] at hstep
      rw [← hstep.2, List.getElem?_modify_ne _ _ fun hc => hne (congrArg some hc)]
  | set hm key count =>
      rw [Call.step, Option.ite_none_right_eq_some, Option.some.injEq] at hstep
      rw [← hstep.2, List.getElem?_modify_ne _ _ fun hc => hne (congrArg some hc)]
  | merge dst src =>
      have hdst : dst ≠ i := fun hc => hne (congrArg some hc)
      rw [Call.step, Option.ite_none_right_eq_some, Option.some.injEq] at hstep
      obtain ⟨⟨-, hsrc⟩, rfl⟩ := hstep
      by_cases hself : dst = src
      · subst hself
        obtain ⟨more, -, hkeeps⟩ := forall₂_getElem? h (List.getElem?_eq_getElem hsrc)
        rw [hmMerge_self (List.getElem?_eq_getElem hsrc) hkeeps.found, List.getElem?_modify_ne _ _ hdst]
      · rw [hmMerge_other hself (List.getElem?_eq_getElem hsrc), List.getElem?_modify_ne _ _ hdst]
  | clear hm =>
      rw [Call.step, Option.ite_none_right_eq_some, Option.some.injEq] at hstep
      rw [← hstep.2, List.getElem?_modify_ne _ _ fun hc => hne (congrArg some hc)]

/-- **The hash map is a finite map.**  After any calls on maps that were created, each map in
memory is one for the finite map at its place, and the next call leaves all maps but the one
it is for as they are. -/
theorem maps_refine {calls : List Call} {maps : Maps} (hrun : calls.foldlM Call.step [] = some maps) :
    List.Forall₂ Refines maps (calls.foldl Call.spec []) ∧
      ∀ {call : Call} {maps' : Maps}, call.step maps = some maps' →
        ∀ i < maps.length, call.target ≠ some i → maps'[i]? = maps[i]? := by
  have hkeeps : List.Forall₂ Keeps maps (calls.foldl Call.spec []) := run_keeps .nil hrun
  refine ⟨hkeeps.imp fun _ _ h => h.refines, ?_⟩
  intro call maps' hstep i hi hne
  exact step_getElem? hkeeps hstep hi hne

/-- Two maps, one merged into the other and into itself, and then one more key. -/
theorem maps_refine_merged :
    List.Forall₂ Refines
      [⟨[[⟨ascii "c", 1⟩, ⟨ascii "a", 10⟩], [⟨ascii "b", 4⟩]]⟩, ⟨[[⟨ascii "a", 5⟩]]⟩]
      ([.create 2, .create 1, .putInc 0 (ascii "B") 2, .set 1 (ascii "A") 5, .merge 0 1, .merge 0 0,
        .putInc 0 (ascii "C") 1].foldl Call.spec []) :=
  (maps_refine (by decide +kernel)).1

end ChordDht.WordCount
