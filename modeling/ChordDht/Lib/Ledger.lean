/-
A ledger of the blocks an allocator gives out.

Blocks are known by serial numbers, given out in order.  A block is held by someone or
was given back, and never both; a ledger is sound if no block is in it twice.  Every
operation of an owner is a turn: it gives back some of what it holds, and takes some
blocks that are new.
-/
import Mathlib

namespace ChordDht.Ledger

/-- The next serial is `next`, and no block is held twice, given back twice, or both. -/
structure Sound (next : Nat) (held freed : List Nat) : Prop where
  nodup : (held ++ freed).Nodup
  given : ∀ n ∈ held ++ freed, n < next

theorem Sound.empty (next : Nat) : Sound next [] [] := ⟨List.nodup_nil, fun _ hn => absurd hn List.not_mem_nil⟩

variable {next next' : Nat} {held held' freed freed' gone kept taken : List Nat}

/-- **What is given back** was out, once, and had not been given back. -/
theorem Sound.live (h : Sound next held freed) (hheld : held.Perm (gone ++ kept)) :
    gone.Nodup ∧ ∀ n ∈ gone, n < next ∧ n ∉ freed := by
  have hnodup := (hheld.append_right freed).nodup_iff.mp h.nodup
  rw [List.append_assoc, List.nodup_append] at hnodup
  obtain ⟨hgone, -, hapart⟩ := hnodup
  refine ⟨hgone, ?_⟩
  intro n hn
  refine ⟨h.given n (List.mem_append_left _ (hheld.mem_iff.mpr (List.mem_append_left _ hn))), ?_⟩
  intro hfreed
  exact hapart n hn n (List.mem_append_right _ hfreed) rfl

/-- What is held has not been given back. -/
theorem Sound.held_notMem (h : Sound next held freed) : ∀ n ∈ held, n ∉ freed := by
  intro n hn hfreed
  exact (List.nodup_append.mp h.nodup).2.2 n hn n hfreed rfl

/-- **A turn** keeps the ledger sound. -/
theorem Sound.turn (h : Sound next held freed) (hheld : held.Perm (gone ++ kept))
    (hheld' : held'.Perm (taken ++ kept)) (hfreed' : freed'.Perm (gone ++ freed)) (hnext : next ≤ next')
    (htaken : taken.Nodup) (hfresh : ∀ n ∈ taken, next ≤ n ∧ n < next') : Sound next' held' freed' := by
  have hout : (held ++ freed).Perm (kept ++ (gone ++ freed)) := by
    refine (hheld.append_right freed).trans ?_
    rw [← List.append_assoc]
    exact List.perm_append_comm.append_right freed
  have hout' : (held' ++ freed').Perm (taken ++ (kept ++ (gone ++ freed))) := by
    rw [← List.append_assoc]
    exact hheld'.append hfreed'
  have hold : ∀ n ∈ kept ++ (gone ++ freed), n < next := fun n hn => h.given n (hout.mem_iff.mpr hn)
  refine ⟨?_, ?_⟩
  · rw [hout'.nodup_iff, List.nodup_append]
    refine ⟨htaken, hout.nodup_iff.mp h.nodup, ?_⟩
    intro n hn m hm hnm
    have hlow := (hfresh n hn).1
    have hhigh := hold m hm
    omega
  · intro n hn
    rcases List.mem_append.mp (hout'.mem_iff.mp hn) with hn | hn
    · exact (hfresh n hn).2
    · have hlt := hold n hn
      omega

end ChordDht.Ledger
