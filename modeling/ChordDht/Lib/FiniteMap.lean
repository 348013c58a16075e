/-
Finite maps, and the lists that hold them.

A map is a partial function.  A list of pairs holds it if no key comes twice and the
pairs are those of the function; so the list can be read in any order, and there are as
many pairs as there are keys.  Writing under a key is one change of the list: the pair of
the key gets the new value, or a pair is put somewhere.
-/
import Mathlib

namespace ChordDht

variable {κ ν : Type}

/-- The list has exactly the pairs of the map, each key once. -/
structure Lists (ts : List (κ × ν)) (m : κ → Option ν) : Prop where
  keys : (ts.map Prod.fst).Nodup
  mem : ∀ k n, (k, n) ∈ ts ↔ m k = some n

namespace Lists

variable {ts us : List (κ × ν)} {m : κ → Option ν}

theorem nil : Lists ([] : List (κ × ν)) (fun _ => none) := by
  refine ⟨List.nodup_nil, ?_⟩
  intro k n
  simp

/-- A key without a value is not in the list. -/
theorem notMem_iff (h : Lists ts m) (k : κ) : k ∉ ts.map Prod.fst ↔ m k = none := by
  rw [Option.eq_none_iff_forall_ne_some]
  constructor
  · intro hnot n hn
    exact hnot (List.mem_map.mpr ⟨(k, n), (h.mem k n).mpr hn, rfl⟩)
  · intro hnone hmem
    obtain ⟨⟨k', n⟩, ht, rfl⟩ := List.mem_map.mp hmem
    exact hnone n ((h.mem k' n).mp ht)

/-- **There are as many pairs as keys.** -/
theorem encard_eq (h : Lists ts m) : {k | (m k).isSome}.encard = ts.length := by
  classical
  have hset : {k | (m k).isSome} = ((ts.map Prod.fst).toFinset : Set κ) := by
    ext k
    rw [Set.mem_ofPred_eq, List.coe_toFinset, Set.mem_ofPred_eq, Option.isSome_iff_ne_none, ne_eq,
      ← h.notMem_iff, not_not]
  rw [hset, Set.encard_coe_eq_coe_finsetCard, List.toFinset_card_of_nodup h.keys, List.length_map]

/-- The same change of all values. -/
theorem map (h : Lists ts m) (f : ν → ν) :
    Lists (ts.map fun t => (t.1, f t.2)) (fun k => (m k).map f) := by
  refine ⟨?_, ?_⟩
  · rw [List.map_map]
    exact h.keys
  · intro k v
    rw [List.mem_map, Option.map_eq_some_iff]
    constructor
    · rintro ⟨⟨k', n⟩, ht, hpair⟩
      obtain ⟨rfl, rfl⟩ := Prod.mk.inj hpair
      exact ⟨n, (h.mem k' n).mp ht, rfl⟩
    · rintro ⟨n, hn, hv⟩
      exact ⟨(k, n), (h.mem k n).mpr hn, by rw [hv]⟩

variable [DecidableEq κ]

/-- A new pair, anywhere in the list. -/
theorem insert {front back : List (κ × ν)} {key : κ} (h : Lists (front ++ back) m) (hnone : m key = none)
    (n : ν) : Lists (front ++ (key, n) :: back) (Function.update m key (some n)) := by
  have hnot := (h.notMem_iff key).mpr hnone
  refine ⟨?_, ?_⟩
  · have hperm : ((front ++ (key, n) :: back).map Prod.fst).Perm (key :: (front ++ back).map Prod.fst) :=
      List.perm_middle.map Prod.fst
    exact hperm.nodup_iff.mpr (List.nodup_cons.mpr ⟨hnot, h.keys⟩)
  · intro k n'
    rw [List.perm_middle.mem_iff, List.mem_cons, h.mem, Prod.mk.injEq]
    by_cases hk : k = key
    · subst hk
      rw [Function.update_self, hnone]
      simp [eq_comm]
    · rw [Function.update_of_ne hk]
      simp [hk]

/-- Another value in the pair of the key. -/
theorem change {front back : List (κ × ν)} {key : κ} {n : ν} (h : Lists (front ++ (key, n) :: back) m)
    (n' : ν) : Lists (front ++ (key, n') :: back) (Function.update m key (some n')) := by
  have hkeys : (front ++ (key, n') :: back).map Prod.fst = (front ++ (key, n) :: back).map Prod.fst := by
    simp
  have hcons := (List.perm_middle.map Prod.fst).nodup_iff.mp h.keys
  rw [List.map_cons, List.nodup_cons] at hcons
  refine ⟨hkeys ▸ h.keys, ?_⟩
  intro k v
  have hmem := h.mem k v
  rw [List.perm_middle.mem_iff, List.mem_cons, Prod.mk.injEq] at hmem ⊢
  by_cases hk : k = key
  · subst hk
    have hother : (k, v) ∉ front ++ back := fun hc => hcons.1 (List.mem_map.mpr ⟨_, hc, rfl⟩)
    rw [Function.update_self]
    simp [hother, eq_comm]
  · rw [Function.update_of_ne hk, ← hmem]
    simp [hk]

/-- One pair less: the map without its key. -/
theorem erase {front back : List (κ × ν)} {key : κ} {n : ν} (h : Lists (front ++ (key, n) :: back) m) :
    Lists (front ++ back) (Function.update m key none) := by
  have hcons := (List.perm_middle.map Prod.fst).nodup_iff.mp h.keys
  rw [List.map_cons, List.nodup_cons] at hcons
  refine ⟨hcons.2, ?_⟩
  intro k v
  by_cases hk : k = key
  · subst hk
    rw [Function.update_self]
    exact iff_of_false (fun hc => hcons.1 (List.mem_map.mpr ⟨_, hc, rfl⟩)) (Option.some_ne_none v).symm
  · rw [Function.update_of_ne hk, ← h.mem, List.perm_middle.mem_iff, List.mem_cons, Prod.mk.injEq]
    simp [hk]

/-- The first pair and the others. -/
theorem tail {key : κ} {n : ν} (h : Lists ((key, n) :: ts) m) :
    m key = some n ∧ Lists ts (Function.update m key none) :=
  ⟨(h.mem key n).mp (List.mem_cons_self ..), @erase κ ν m _ [] ts key n h⟩

end Lists

/-! ### A map in parts -/

/-- Each part has the values of the whole at the keys it owns. -/
def PartsOf {ι : Type} (Owns : ι → κ → Prop) (parts : ι → κ → ν) (whole : κ → ν) : Prop :=
  ∀ i k, Owns i k → parts i k = whole k

/-- **Writing in the part that owns a key** writes in the whole. -/
theorem PartsOf.write {ι : Type} [DecidableEq ι] [DecidableEq κ] {Owns : ι → κ → Prop} {parts : ι → κ → ν}
    {whole : κ → ν} (h : PartsOf Owns parts whole) {i : ι} {k : κ} (honly : ∀ j, Owns j k → j = i)
    (v : ν) : PartsOf Owns (Function.update parts i (Function.update (parts i) k v)) (Function.update whole k v) := by
  intro j k' hown
  by_cases hj : j = i
  · subst hj
    rw [Function.update_self]
    by_cases hk : k' = k
    · rw [hk, Function.update_self, Function.update_self]
    · rw [Function.update_of_ne hk, Function.update_of_ne hk, h j k' hown]
  · have hk : k' ≠ k := fun hc => hj (honly j (hc ▸ hown))
    rw [Function.update_of_ne hj, Function.update_of_ne hk, h j k' hown]

/-- What a map has under each key, with something more. -/
def plus (m more : κ → Option ℤ) : κ → Option ℤ := fun k =>
  match more k with
  | none => m k
  | some n => some ((m k).getD 0 + n)

theorem plus_self (m : κ → Option ℤ) : plus m m = fun k => (m k).map fun n => n + n := by
  funext k
  unfold plus
  cases m k <;> rfl

/-- **Adding pair by pair** is adding the map of the pairs. -/
theorem foldl_plus [DecidableEq κ] {ts : List (κ × ℤ)} : ∀ {m more : κ → Option ℤ}, Lists ts more →
    ts.foldl (fun (m : κ → Option ℤ) t => Function.update m t.1 (some ((m t.1).getD 0 + t.2))) m = plus m more := by
  induction ts with
  | nil =>
      intro m more h
      funext k
      have hnone : more k = none := (h.notMem_iff k).mp List.not_mem_nil
      rw [List.foldl_nil, plus, hnone]
  | cons t ts ih =>
      intro m more h
      obtain ⟨hfirst, hrest⟩ := h.tail
      rw [List.foldl_cons, ih hrest]
      funext k
      by_cases hk : k = t.1
      · subst hk
        simp [plus, hfirst]
      · simp [plus, Function.update_of_ne hk]

end ChordDht
