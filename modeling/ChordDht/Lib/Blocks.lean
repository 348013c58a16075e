/-
Blocks on a heap, and what is on it.

The heap numbers what is asked of it: the `n`-th allocation is granted or not, as `grants` says,
and a granted one is the block `n + 1`, so no address comes twice and a block that was freed
stays unknown.  Reading, writing or freeing what is no block is a fault.  `Is` says which blocks
there are, with their contents; the rules are about one of them, and the others stay.
-/
import ChordDht.Lib.Outcome

namespace ChordDht.Blocks

variable {V : Type}

structure Heap (V : Type) where
  block : Nat → Option V
  asked : Nat
  grants : Nat → Bool

/-- `NULL` is 0. -/
def Heap.malloc (h : Heap V) (v : V) : Nat × Heap V :=
  if h.grants h.asked then
    (h.asked + 1, ⟨Function.update h.block (h.asked + 1) (some v), h.asked + 1, h.grants⟩)
  else (0, ⟨h.block, h.asked + 1, h.grants⟩)

def Heap.load (h : Heap V) (a : Nat) : Outcome V := (h.block a).elim .faults .returns

def Heap.store (h : Heap V) (a : Nat) (v : V) : Outcome (Heap V) :=
  if (h.block a).isSome then .returns ⟨Function.update h.block a (some v), h.asked, h.grants⟩ else .faults

/-- Freeing `NULL` does nothing. -/
def Heap.free (h : Heap V) (a : Nat) : Outcome (Heap V) :=
  if a = 0 then .returns h
  else if (h.block a).isSome then .returns ⟨Function.update h.block a none, h.asked, h.grants⟩
  else .faults

/-- The heap after `n` questions, with the answers `g`: the blocks are those of `bs`. -/
structure Heap.Is (h : Heap V) (g : Nat → Bool) (n : Nat) (bs : Multiset (Nat × V)) : Prop where
  grants : h.grants = g
  asked : h.asked = n
  nodup : (bs.map Prod.fst).Nodup
  block : ∀ a v, h.block a = some v ↔ (a, v) ∈ bs
  placed : ∀ t ∈ bs, 0 < t.1 ∧ t.1 ≤ n

theorem mem_front (t : Nat × V) (bs : Multiset (Nat × V)) : t ∈ {t} + bs :=
  Multiset.mem_add.mpr (Or.inl (Multiset.mem_singleton_self t))

namespace Heap.Is

variable {h : Heap V} {g : Nat → Bool} {n a : Nat} {v : V} {bs : Multiset (Nat × V)}

theorem load (his : h.Is g n bs) (hmem : (a, v) ∈ bs) : h.load a = .returns v := by
  rw [Heap.load, (his.block a v).mpr hmem]
  rfl

theorem ne_null (his : h.Is g n bs) (hmem : (a, v) ∈ bs) : a ≠ 0 := Nat.ne_of_gt (his.placed _ hmem).1

/-- There are no more blocks than were asked for. -/
theorem card_le (his : h.Is g n bs) : Multiset.card bs ≤ n := by
  have hsub : bs.map Prod.fst ⊆ (Multiset.range n).map (· + 1) := by
    intro a ha
    obtain ⟨t, ht, rfl⟩ := Multiset.mem_map.mp ha
    have hplaced := his.placed t ht
    exact Multiset.mem_map.mpr ⟨t.1 - 1, Multiset.mem_range.mpr (by omega), by omega⟩
  have hle := Multiset.card_le_card ((Multiset.le_iff_subset his.nodup).mpr hsub)
  rwa [Multiset.card_map, Multiset.card_map, Multiset.card_range] at hle

theorem malloc_granted (his : h.Is g n bs) (hg : g n = true) (v : V) :
    (h.malloc v).1 = n + 1 ∧ (h.malloc v).2.Is g (n + 1) ({(n + 1, v)} + bs) := by
  have hyes : h.grants h.asked = true := by rw [his.grants, his.asked, hg]
  have hnew : ∀ t ∈ bs, t.1 ≠ n + 1 := by
    intro t ht
    have hplaced := his.placed t ht
    omega
  rw [Heap.malloc, if_pos hyes, his.asked, Multiset.singleton_add]
  refine ⟨rfl, his.grants, rfl, ?_, ?_, ?_⟩
  · rw [Multiset.map_cons, Multiset.nodup_cons]
    refine ⟨?_, his.nodup⟩
    intro hmem
    obtain ⟨t, ht, hat⟩ := Multiset.mem_map.mp hmem
    exact hnew t ht hat
  · intro a w
    show Function.update h.block (n + 1) (some v) a = some w ↔ _
    by_cases ha : a = n + 1
    · subst ha
      rw [Function.update_self, Option.some_inj, Multiset.mem_cons, Prod.mk.injEq]
      constructor
      · intro hw
        exact Or.inl ⟨rfl, hw.symm⟩
      · rintro (hw | hmem)
        · exact hw.2.symm
        · exact absurd rfl (hnew _ hmem)
    · rw [Function.update_of_ne ha, his.block, Multiset.mem_cons, Prod.mk.injEq]
      simp [ha]
  · intro t ht
    rcases Multiset.mem_cons.mp ht with rfl | ht
    · exact ⟨Nat.succ_pos n, Nat.le_refl _⟩
    · have hplaced := his.placed t ht
      omega

theorem malloc_refused (his : h.Is g n bs) (hg : g n = false) (v : V) :
    (h.malloc v).1 = 0 ∧ (h.malloc v).2.Is g (n + 1) bs := by
  have hno : ¬ h.grants h.asked = true := by
    rw [his.grants, his.asked, hg]
    exact Bool.false_ne_true
  rw [Heap.malloc, if_neg hno]
  refine ⟨rfl, his.grants, congrArg (· + 1) his.asked, his.nodup, his.block, ?_⟩
  intro t ht
  have hplaced := his.placed t ht
  omega

/-- The other blocks are elsewhere. -/
theorem apart (his : h.Is g n ({(a, v)} + bs)) : (bs.map Prod.fst).Nodup ∧ ∀ w, (a, w) ∉ bs := by
  have hnodup := his.nodup
  rw [Multiset.singleton_add, Multiset.map_cons, Multiset.nodup_cons] at hnodup
  refine ⟨hnodup.2, ?_⟩
  intro w hw
  exact hnodup.1 (Multiset.mem_map.mpr ⟨(a, w), hw, rfl⟩)

theorem store (his : h.Is g n ({(a, v)} + bs)) (w : V) :
    ∃ h', h.store a w = .returns h' ∧ h'.Is g n ({(a, w)} + bs) := by
  have hmem : (a, v) ∈ {(a, v)} + bs := mem_front _ _
  have hload := (his.block a v).mpr hmem
  obtain ⟨-, hapart⟩ := his.apart
  refine ⟨⟨Function.update h.block a (some w), h.asked, h.grants⟩, ?_, his.grants, his.asked, ?_, ?_, ?_⟩
  · rw [Heap.store, hload, if_pos (Option.isSome_some)]
  · have hnodup := his.nodup
    simpa using hnodup
  · intro b u
    have hold := his.block b u
    show Function.update h.block a (some w) b = some u ↔ _
    by_cases hb : b = a
    · subst hb
      rw [Function.update_self, Option.some_inj, Multiset.singleton_add, Multiset.mem_cons, Prod.mk.injEq]
      constructor
      · intro hu
        exact Or.inl ⟨rfl, hu.symm⟩
      · rintro (hu | hmem)
        · exact hu.2.symm
        · exact absurd hmem (hapart u)
    · rw [Function.update_of_ne hb, hold]
      simp [hb]
  · intro t ht
    rcases Multiset.mem_add.mp ht with ht | ht
    · rw [Multiset.mem_singleton.mp ht]
      exact his.placed (a, v) hmem
    · exact his.placed t (Multiset.mem_add.mpr (Or.inr ht))

theorem free (his : h.Is g n ({(a, v)} + bs)) : ∃ h', h.free a = .returns h' ∧ h'.Is g n bs := by
  have hmem : (a, v) ∈ {(a, v)} + bs := mem_front _ _
  have hload := (his.block a v).mpr hmem
  obtain ⟨hnodup, hapart⟩ := his.apart
  refine ⟨⟨Function.update h.block a none, h.asked, h.grants⟩, ?_, his.grants, his.asked, hnodup, ?_, ?_⟩
  · rw [Heap.free, if_neg (his.ne_null hmem), hload, if_pos (Option.isSome_some)]
  · intro b u
    have hold := his.block b u
    show Function.update h.block a none b = some u ↔ _
    by_cases hb : b = a
    · subst hb
      rw [Function.update_self]
      constructor
      · intro hu
        cases hu
      · intro hu
        exact absurd hu (hapart u)
    · rw [Function.update_of_ne hb, hold]
      simp [hb]
  · intro t ht
    exact his.placed t (Multiset.mem_add.mpr (Or.inr ht))

end Heap.Is

end ChordDht.Blocks
