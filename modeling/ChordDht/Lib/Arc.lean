/-
Arcs of a circle cut out of a linear order.

Identifiers on a ring are numbers that wrap around, and each position of the ring
answers for the arc that starts just after its predecessor and ends at itself.
What a ring needs of that is proved here once, for any linear order: positions
listed in increasing order cut the order into arcs that are disjoint and cover
everything, so every element has exactly one owner.

Positions are `Fin n`, with `next` and `prev` wrapping at the ends.  `ahead i j`
counts the steps from `i` forward to `j`; it is what a walk around the circle
decreases.
-/
import Mathlib

namespace ChordDht.Arc

/-- `h` lies after `p` and not after `s`, wrapping around unless `p` is below `s`. -/
def OnArc {α : Type} [LinearOrder α] (p s h : α) : Prop :=
  if p < s then p < h ∧ h ≤ s else p < h ∨ h ≤ s

instance {α : Type} [LinearOrder α] (p s h : α) : Decidable (OnArc p s h) := by
  unfold OnArc; infer_instance

/-- The position after `i`. -/
def next {n : Nat} (i : Fin n) : Fin n :=
  ⟨if i.val + 1 < n then i.val + 1 else 0, by have := i.isLt; split <;> omega⟩

/-- The position before `i`. -/
def prev {n : Nat} (i : Fin n) : Fin n :=
  ⟨if 0 < i.val then i.val - 1 else n - 1, by have := i.isLt; split <;> omega⟩

/-- How many steps forward lead from `i` to `j`. -/
def ahead {n : Nat} (i j : Fin n) : Nat :=
  if i.val ≤ j.val then j.val - i.val else j.val + n - i.val

variable {n : Nat}

/-! ### Walking forward -/

@[simp] theorem prev_next (i : Fin n) : prev (next i) = i := by
  apply Fin.ext
  have := i.isLt
  simp only [prev, next]
  split <;> split <;> omega

theorem ahead_lt (i j : Fin n) : ahead i j < n := by
  have := i.isLt
  have := j.isLt
  unfold ahead
  split <;> omega

theorem ahead_eq_zero {i j : Fin n} : ahead i j = 0 ↔ i = j := by
  have := i.isLt
  have := j.isLt
  rw [Fin.ext_iff]
  unfold ahead
  split <;> omega

/-- One step forward is one step less to go. -/
theorem ahead_next {i j : Fin n} (h : i ≠ j) : ahead (next i) j + 1 = ahead i j := by
  have := i.isLt
  have := j.isLt
  have hne : i.val ≠ j.val := fun hc => h (Fin.ext hc)
  simp only [ahead, next]
  repeat' split
  all_goals omega

/-! ### The arcs of an increasing list of positions -/

section Partition

variable {α : Type} [LinearOrder α] {f : Fin n → α}

/-- Away from the first position the arc does not wrap. -/
theorem onArc_of_pos (hf : StrictMono f) {i : Fin n} (hi : 0 < i.val) (h : α) :
    OnArc (f (prev i)) (f i) h ↔ f (prev i) < h ∧ h ≤ f i := by
  have hlt : f (prev i) < f i := hf (by simp only [Fin.lt_def, prev, if_pos hi]; omega)
  rw [OnArc, if_pos hlt]

/-- The first position's arc is the one that wraps. -/
theorem onArc_of_zero (hf : StrictMono f) {i : Fin n} (hi : i.val = 0) (h : α) :
    OnArc (f (prev i)) (f i) h ↔ f (prev i) < h ∨ h ≤ f i := by
  have hle : i ≤ prev i := by rw [Fin.le_def, hi]; exact Nat.zero_le _
  rw [OnArc, if_neg (not_lt.mpr (hf.monotone hle))]

/-- No element is on the arcs of two positions. -/
theorem onArc_unique_of_lt (hf : StrictMono f) {i j : Fin n} (hij : i < j) {h : α}
    (hi : OnArc (f (prev i)) (f i) h) (hj : OnArc (f (prev j)) (f j) h) : False := by
  have hjpos : 0 < j.val := by rw [Fin.lt_def] at hij; omega
  rw [onArc_of_pos hf hjpos] at hj
  have hle : f i ≤ f (prev j) := hf.monotone (by
    rw [Fin.lt_def] at hij; simp only [Fin.le_def, prev, if_pos hjpos]; omega)
  have hih : f i < h := lt_of_le_of_lt hle hj.1
  by_cases hpos : 0 < i.val
  · rw [onArc_of_pos hf hpos] at hi
    exact absurd hi.2 (not_le.mpr hih)
  · rw [onArc_of_zero hf (by omega)] at hi
    rcases hi with hlast | hfirst
    · -- The arc before the first position starts at the last one, beyond `f j`.
      have hjlast : f j ≤ f (prev i) := hf.monotone (by
        have := j.isLt; simp only [Fin.le_def, prev, if_neg hpos]; omega)
      exact absurd (lt_of_lt_of_le hlast hj.2) (not_lt.mpr hjlast)
    · exact absurd hfirst (not_le.mpr hih)

/-- Some position's arc holds the element: the first position not below it, or the
first of all when every position is below it. -/
theorem onArc_exists (hf : StrictMono f) (hn : 0 < n) (h : α) :
    ∃ i, OnArc (f (prev i)) (f i) h := by
  by_cases hex : ∃ k : Nat, ∃ hk : k < n, h ≤ f ⟨k, hk⟩
  · classical
    obtain ⟨hk, hle⟩ := Nat.find_spec hex
    refine ⟨⟨Nat.find hex, hk⟩, ?_⟩
    by_cases hpos : 0 < Nat.find hex
    · refine (onArc_of_pos hf hpos h).mpr ⟨?_, hle⟩
      have hmin := Nat.find_min hex (Nat.sub_lt hpos Nat.one_pos)
      simp only [not_exists, not_le] at hmin
      have := hmin (by omega)
      simpa only [prev, if_pos hpos] using this
    · exact (onArc_of_zero hf (by simpa using hpos) h).mpr (Or.inr hle)
  · refine ⟨⟨0, hn⟩, (onArc_of_zero hf rfl h).mpr (Or.inl ?_)⟩
    simp only [not_exists, not_le] at hex
    exact hex _ (prev ⟨0, hn⟩).isLt

/-- **Increasing positions cut the circle into arcs: every element is on exactly one.** -/
theorem existsUnique_onArc (hf : StrictMono f) (hn : 0 < n) (h : α) :
    ∃! i, OnArc (f (prev i)) (f i) h := by
  obtain ⟨i, hi⟩ := onArc_exists hf hn h
  refine ⟨i, hi, ?_⟩
  intro j hj
  rcases lt_trichotomy i j with hlt | heq | hgt
  · exact (onArc_unique_of_lt hf hlt hi hj).elim
  · exact heq.symm
  · exact (onArc_unique_of_lt hf hgt hj hi).elim

end Partition

end ChordDht.Arc
