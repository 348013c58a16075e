/-
Singly linked lists in memory.

A cell is a value and the address of the next cell.  `Linked` is a path from one link to
another, through cells at given addresses; a list is a path that ends in a null link.
What is written at an address that is not on a path leaves the path alone, so each of the
usual writes (a cell in front, another value in a cell, a link around a cell) is one change
of the list.
-/
import Mathlib

namespace ChordDht.Chain

structure Cell (α : Type) where
  value : α
  next : Option Nat
  deriving DecidableEq, Repr

/-- What is at each address. -/
abbrev Memory (α : Type) := Nat → Option (Cell α)

variable {α : Type}

/-- A path from `head` to `tail` through these cells. -/
def Linked (memory : Memory α) : Option Nat → List (Nat × α) → Option Nat → Prop
  | head, [], tail => head = tail
  | head, cell :: cells, tail => head = some cell.1 ∧
      ∃ next, memory cell.1 = some ⟨cell.2, next⟩ ∧ Linked memory next cells tail

variable {memory memory' : Memory α} {head tail next : Option Nat} {cells front back : List (Nat × α)} {ptr : Nat}
  {a b : α}

theorem linked_append : Linked memory head (front ++ back) tail ↔
    ∃ middle, Linked memory head front middle ∧ Linked memory middle back tail := by
  induction front generalizing head with
  | nil =>
      constructor
      · intro h
        exact ⟨head, rfl, h⟩
      · rintro ⟨middle, rfl, h⟩
        exact h
  | cons cell front ih =>
      constructor
      · rintro ⟨hhead, next, hcell, hrest⟩
        obtain ⟨middle, hfront, hback⟩ := ih.mp hrest
        exact ⟨middle, ⟨hhead, next, hcell, hfront⟩, hback⟩
      · rintro ⟨middle, ⟨hhead, next, hcell, hfront⟩, hback⟩
        exact ⟨hhead, next, hcell, ih.mpr ⟨middle, hfront, hback⟩⟩

/-- A path goes through what is at its addresses only. -/
theorem linked_congr (h : ∀ p ∈ cells.map Prod.fst, memory' p = memory p)
    (hlinked : Linked memory head cells tail) : Linked memory' head cells tail := by
  induction cells generalizing head with
  | nil => exact hlinked
  | cons cell cells ih =>
      obtain ⟨hhead, next, hcell, hrest⟩ := hlinked
      refine ⟨hhead, next, ?_, ih (fun p hp => h p (List.mem_cons_of_mem _ hp)) hrest⟩
      rw [h cell.1 (List.mem_cons_self ..), hcell]

/-- Writing elsewhere. -/
theorem linked_update (h : ptr ∉ cells.map Prod.fst) (cell : Option (Cell α))
    (hlinked : Linked memory head cells tail) : Linked (Function.update memory ptr cell) head cells tail := by
  refine linked_congr ?_ hlinked
  intro p hp
  have hne : p ≠ ptr := by
    rintro rfl
    exact h hp
  exact Function.update_of_ne hne _ _

/-- There is a cell at each address of a path. -/
theorem Linked.allocated (hlinked : Linked memory head cells tail) : ∀ p ∈ cells.map Prod.fst, memory p ≠ none := by
  induction cells generalizing head with
  | nil => exact fun p hp => absurd hp List.not_mem_nil
  | cons cell cells ih =>
      obtain ⟨-, next, hcell, hrest⟩ := hlinked
      intro p hp
      rcases List.mem_cons.mp hp with rfl | hp
      · rw [hcell]
        exact Option.some_ne_none _
      · exact ih hrest p hp

/-- The addresses of a list are all different. -/
def Apart (cells : List (Nat × α)) : Prop := (cells.map Prod.fst).Nodup

/-- **A cell in front.** -/
theorem linked_push (hfree : memory ptr = none) (hapart : Apart cells) (hlinked : Linked memory head cells tail) :
    Linked (Function.update memory ptr (some ⟨a, head⟩)) (some ptr) ((ptr, a) :: cells) tail ∧
      Apart ((ptr, a) :: cells) := by
  have hnot : ptr ∉ cells.map Prod.fst := fun hmem => hlinked.allocated ptr hmem hfree
  refine ⟨⟨rfl, head, Function.update_self _ _ _, linked_update hnot _ hlinked⟩, ?_⟩
  exact List.nodup_cons.mpr ⟨hnot, hapart⟩

theorem Apart.between (h : Apart (front ++ (ptr, a) :: back)) :
    ptr ∉ front.map Prod.fst ∧ ptr ∉ back.map Prod.fst ∧ Apart (front ++ back) := by
  unfold Apart at h ⊢
  rw [List.map_append, List.map_cons, List.perm_middle.nodup_iff, List.nodup_cons, List.mem_append, not_or] at h
  rw [List.map_append]
  exact ⟨h.1.1, h.1.2, h.2⟩

/-- **Another value in a cell.** -/
theorem linked_write (hapart : Apart (front ++ (ptr, a) :: back)) (hcell : memory ptr = some ⟨a, next⟩)
    (hlinked : Linked memory head (front ++ (ptr, a) :: back) tail) :
    Linked (Function.update memory ptr (some ⟨b, next⟩)) head (front ++ (ptr, b) :: back) tail ∧
      Apart (front ++ (ptr, b) :: back) := by
  obtain ⟨hfront, hback, -⟩ := hapart.between
  obtain ⟨middle, hbefore, hmiddle, next', hcell', hafter⟩ := linked_append.mp hlinked
  rw [hcell, Option.some.injEq, Cell.mk.injEq] at hcell'
  obtain ⟨-, rfl⟩ := hcell'
  refine ⟨linked_append.mpr ⟨middle, linked_update hfront _ hbefore, hmiddle, next, Function.update_self _ _ _,
    linked_update hback _ hafter⟩, ?_⟩
  unfold Apart at hapart ⊢
  rwa [List.map_append, List.map_cons] at hapart ⊢

/-- **The first cell is left out**: the list begins at the next one. -/
theorem linked_tail (hapart : Apart ((ptr, a) :: back)) (hcell : memory ptr = some ⟨a, next⟩)
    (hlinked : Linked memory head ((ptr, a) :: back) tail) :
    Linked (Function.update memory ptr none) next back tail ∧ Apart back := by
  obtain ⟨hnot, hback⟩ := List.nodup_cons.mp hapart
  obtain ⟨-, next', hcell', hafter⟩ := hlinked
  rw [hcell, Option.some.injEq, Cell.mk.injEq] at hcell'
  obtain ⟨-, rfl⟩ := hcell'
  exact ⟨linked_update hnot _ hafter, hback⟩

/-- **A cell inside is left out**: the one before it is linked to the next one. -/
theorem linked_bypass {prev : Nat} (hapart : Apart (front ++ (prev, b) :: (ptr, a) :: back))
    (hcell : memory ptr = some ⟨a, next⟩)
    (hlinked : Linked memory head (front ++ (prev, b) :: (ptr, a) :: back) tail) :
    Linked (Function.update (Function.update memory prev (some ⟨b, next⟩)) ptr none) head
      (front ++ (prev, b) :: back) tail ∧ Apart (front ++ (prev, b) :: back) := by
  obtain ⟨hfront, hrest, -⟩ := hapart.between
  have hjoin : front ++ (prev, b) :: (ptr, a) :: back = (front ++ [(prev, b)]) ++ (ptr, a) :: back := by simp
  have hapart' := hapart
  rw [hjoin] at hapart'
  obtain ⟨hfront', hback', hapart''⟩ := hapart'.between
  rw [List.map_cons, List.mem_cons, not_or] at hrest
  obtain ⟨middle, hbefore, hmiddle, link, hprev, hlink, next', hcell', hafter⟩ := linked_append.mp hlinked
  rw [hcell, Option.some.injEq, Cell.mk.injEq] at hcell'
  obtain ⟨-, rfl⟩ := hcell'
  have hne : prev ≠ ptr := hrest.1
  rw [List.map_append, List.mem_append, not_or] at hfront'
  have hshort : front ++ (prev, b) :: back = front ++ [(prev, b)] ++ back := by simp
  rw [hshort]
  refine ⟨?_, hapart''⟩
  rw [← hshort]
  refine linked_append.mpr ⟨middle, linked_update hfront'.1 _ (linked_update hfront _ hbefore), hmiddle, next, ?_,
    linked_update hback' _ (linked_update hrest.2 _ hafter)⟩
  rw [Function.update_of_ne hne, Function.update_self]

end ChordDht.Chain
