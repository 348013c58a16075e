/-
Looking for a text inside another.

`search` gives the offset of the first occurrence.  What it finds in a prefix of a
text it finds in the text, and what it finds in a text it finds in every prefix that
is long enough to hold it: that is all a reader needs who sees the text grow.
-/
import Mathlib

namespace ChordDht

variable {α : Type} [BEq α] [LawfulBEq α] {needle hay : List α} {i : Nat}

/-- Offset of the first place where `needle` stands in `hay`. -/
def search {α : Type} [BEq α] (needle hay : List α) : Option Nat :=
  hay.tails.findIdx? fun t => needle.isPrefixOf t

theorem search_eq_some : search needle hay = some i ↔
    i ≤ hay.length ∧ needle <+: hay.drop i ∧ ∀ j < i, ¬ needle <+: hay.drop j := by
  rw [search, List.findIdx?_eq_some_iff_getElem]
  simp only [List.length_tails, List.getElem_tails, List.isPrefixOf_iff_prefix, Nat.lt_succ_iff,
    exists_prop]

theorem search_eq_none : search needle hay = none ↔ ¬ needle <:+: hay := by
  rw [search, List.findIdx?_eq_none_iff, List.infix_iff_prefix_suffix]
  simp only [List.mem_tails, Bool.eq_false_iff, ne_eq, List.isPrefixOf_iff_prefix]
  constructor
  · intro h ⟨t, hneedle, hhay⟩
    exact h t hhay hneedle
  · intro h t hhay hneedle
    exact h ⟨t, hneedle, hhay⟩

/-- What is found has room in the text. -/
theorem search_le (h : search needle hay = some i) : i + needle.length ≤ hay.length := by
  obtain ⟨hi, hneedle, -⟩ := search_eq_some.mp h
  have hlen := hneedle.length_le
  rw [List.length_drop] at hlen
  omega

/-- In front of the text there is nothing to find. -/
theorem search_skip {front : List α} (h : ∀ j < front.length, ¬ needle <+: (front ++ hay).drop j) :
    search needle (front ++ hay) = (search needle hay).map (front.length + ·) := by
  have hbehind : ∀ k, (front ++ hay).drop (front.length + k) = hay.drop k := fun k => by
    rw [← List.drop_drop, List.drop_left]
  cases hs : search needle hay with
  | none =>
      rw [search_eq_none, List.infix_iff_prefix_suffix] at hs
      rw [Option.map_none, search_eq_none, List.infix_iff_prefix_suffix]
      intro ⟨t, hneedle, hsuffix⟩
      obtain ⟨j, hj⟩ : ∃ j, t = (front ++ hay).drop j :=
        ⟨_, (List.suffix_iff_eq_drop.mp hsuffix)⟩
      by_cases hfront : j < front.length
      · exact h j hfront (hj ▸ hneedle)
      · refine hs ⟨t, hneedle, ?_⟩
        obtain ⟨k, rfl⟩ : ∃ k, j = front.length + k := ⟨j - front.length, by omega⟩
        rw [hj, hbehind]
        exact List.drop_suffix k hay
  | some i =>
      obtain ⟨hi, hneedle, hfirst⟩ := search_eq_some.mp hs
      show search needle (front ++ hay) = some (front.length + i)
      refine search_eq_some.mpr ⟨?_, ?_, ?_⟩
      · rw [List.length_append]
        omega
      · rwa [hbehind]
      · intro j hj
        by_cases hfront : j < front.length
        · exact h j hfront
        · obtain ⟨k, rfl⟩ : ∃ k, j = front.length + k := ⟨j - front.length, by omega⟩
          rw [hbehind]
          exact hfirst k (by omega)

/-- What is found stays found when the text goes on. -/
theorem search_append (h : search needle hay = some i) (more : List α) :
    search needle (hay ++ more) = some i := by
  obtain ⟨hi, hneedle, hfirst⟩ := search_eq_some.mp h
  have hlen := search_le h
  refine search_eq_some.mpr ⟨?_, ?_, ?_⟩
  · rw [List.length_append]
    omega
  · rw [List.drop_append_of_le_length hi]
    exact List.prefix_append_of_prefix hneedle
  · intro j hj hc
    rw [List.drop_append_of_le_length (by omega)] at hc
    refine hfirst j hj (List.prefix_of_prefix_length_le hc (List.prefix_append _ _) ?_)
    rw [List.length_drop]
    omega

/-- What is found is found in every prefix that holds it. -/
theorem search_take (h : search needle hay = some i) {k : Nat} (hk : i + needle.length ≤ k) :
    search needle (hay.take k) = some i := by
  obtain ⟨hi, hneedle, hfirst⟩ := search_eq_some.mp h
  refine search_eq_some.mpr ⟨?_, ?_, ?_⟩
  · rw [List.length_take]
    omega
  · rw [List.drop_take, List.prefix_take_iff]
    exact ⟨hneedle, by omega⟩
  · intro j hj hc
    rw [List.drop_take, List.prefix_take_iff] at hc
    exact hfirst j hj hc.1

/-- Where it stands it is found, or earlier. -/
theorem search_of_prefix (h : needle <+: hay.drop i) : ∃ j ≤ i, search needle hay = some j := by
  cases hs : search needle hay with
  | none =>
      rw [search_eq_none, List.infix_iff_prefix_suffix] at hs
      exact absurd ⟨hay.drop i, h, List.drop_suffix i hay⟩ hs
  | some j =>
      refine ⟨j, Nat.le_of_not_lt fun hlt => ?_, rfl⟩
      exact (search_eq_some.mp hs).2.2 i hlt h

/-- What is found behind a place is found from there. -/
theorem search_drop (h : search needle hay = some i) {k : Nat} (hk : k ≤ i) :
    search needle (hay.drop k) = some (i - k) := by
  obtain ⟨hi, hneedle, hfirst⟩ := search_eq_some.mp h
  refine search_eq_some.mpr ⟨?_, ?_, ?_⟩
  · rw [List.length_drop]
    omega
  · rwa [List.drop_drop, Nat.add_sub_cancel' hk]
  · intro j hj hc
    rw [List.drop_drop] at hc
    exact hfirst (k + j) (by omega) hc

end ChordDht
