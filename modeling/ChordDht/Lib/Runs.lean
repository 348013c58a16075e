/-
The maximal runs of a text.

A run is a longest piece of characters of one kind; the other characters separate the
runs and belong to none.  Cutting the text next to a separator leaves every run whole,
and the runs with a separator for each of them are no longer than the text with one
more.
-/
import Mathlib

namespace ChordDht

variable {α : Type} {p : α → Bool}

/-- The maximal runs of characters of the kind `p`. -/
def runs (p : α → Bool) (text : List α) : List (List α) :=
  (text.splitOnP fun c => !p c).filter fun r => !r.isEmpty

@[simp] theorem runs_nil : runs p ([] : List α) = [] := rfl

/-- **A separator keeps runs apart.** -/
theorem runs_append_cons (text more : List α) {c : α} (hc : p c = false) :
    runs p (text ++ c :: more) = runs p text ++ runs p more := by
  rw [runs, List.splitOnP_append_cons text more (by simp [hc]), List.filter_append]
  rfl

/-- Separators in front do not count. -/
theorem runs_cons (more : List α) {c : α} (hc : p c = false) : runs p (c :: more) = runs p more :=
  runs_append_cons [] more hc

/-- Nor does one at the end. -/
theorem runs_concat (text : List α) {c : α} (hc : p c = false) : runs p (text ++ [c]) = runs p text := by
  rw [runs_append_cons text [] hc, runs_nil, List.append_nil]

/-- Cutting behind a separator leaves the runs whole. -/
theorem runs_append_of_last {text more : List α} (h : ∀ c ∈ text.getLast?, p c = false) :
    runs p (text ++ more) = runs p text ++ runs p more := by
  rcases List.eq_nil_or_concat text with rfl | ⟨front, c, rfl⟩
  · rfl
  · have hc : p c = false := h c (by simp)
    rw [List.concat_eq_append, List.append_assoc, List.singleton_append, runs_append_cons front more hc,
      runs_concat front hc]

/-- A text of one kind is one run. -/
theorem runs_self {text : List α} (hne : text ≠ []) (hall : ∀ c ∈ text, p c = true) :
    runs p text = [text] := by
  rw [runs, List.splitOnP_eq_singleton fun c hc => by simp [hall c hc]]
  simp [hne]

/-- The first run, with a separator behind it. -/
theorem runs_first {text more : List α} (hne : text ≠ []) (hall : ∀ c ∈ text, p c = true) {c : α}
    (hc : p c = false) : runs p (text ++ c :: more) = text :: runs p more := by
  rw [runs_append_cons text more hc, runs_self hne hall]
  rfl

/-- **Reading the text from the left**: a separator, or a run up to a separator or the end. -/
theorem text_cases (text : List α) : text = [] ∨ (∃ c more, text = c :: more ∧ p c = false) ∨
    (∃ run, run ≠ [] ∧ (∀ c ∈ run, p c = true) ∧ (text = run ∨ ∃ c more, text = run ++ c :: more ∧ p c = false)) := by
  cases text with
  | nil => exact Or.inl rfl
  | cons c more =>
      refine Or.inr ?_
      cases hc : p c with
      | false => exact Or.inl ⟨c, more, rfl, hc⟩
      | true =>
          refine Or.inr ⟨(c :: more).takeWhile p, ?_, fun d hd => List.mem_takeWhile_imp hd, ?_⟩
          · simp [hc]
          · have hsplit := List.takeWhile_append_dropWhile (p := p) (l := c :: more)
            cases hdrop : (c :: more).dropWhile p with
            | nil =>
                rw [hdrop, List.append_nil] at hsplit
                exact Or.inl hsplit.symm
            | cons d rest =>
                refine Or.inr ⟨d, rest, ?_, ?_⟩
                · rw [← hdrop, hsplit]
                · have hhead := List.head?_dropWhile_not p (c :: more)
                  rw [hdrop] at hhead
                  simpa using hhead

/-- An induction along the runs. -/
theorem runs_induction {motive : List α → Prop} (nil : motive [])
    (separator : ∀ c more, p c = false → motive more → motive (c :: more))
    (last : ∀ run, run ≠ [] → (∀ c ∈ run, p c = true) → motive run)
    (run : ∀ run c more, run ≠ [] → (∀ c ∈ run, p c = true) → p c = false → motive more →
      motive (run ++ c :: more)) (text : List α) : motive text := by
  induction hlen : text.length using Nat.strong_induction_on generalizing text with
  | _ n ih =>
      rcases @text_cases α p text with rfl | ⟨c, more, rfl, hc⟩ | ⟨r, hne, hall, rfl | ⟨c, more, rfl, hc⟩⟩
      · exact nil
      · exact separator c more hc (ih _ (by rw [← hlen]; simp) more rfl)
      · exact last text hne hall
      · refine run r c more hne hall hc (ih _ ?_ more rfl)
        rw [← hlen, List.length_append, List.length_cons]
        omega

/-- Every run is one. -/
theorem mem_runs {text run : List α} (h : run ∈ runs p text) : run ≠ [] ∧ ∀ c ∈ run, p c = true := by
  induction text using @runs_induction α p with
  | nil => exact absurd h List.not_mem_nil
  | separator c more hc ih =>
      rw [runs_cons more hc] at h
      exact ih h
  | last r hne hall =>
      rw [runs_self hne hall, List.mem_singleton] at h
      rw [h]
      exact ⟨hne, hall⟩
  | run r c more hne hall hc ih =>
      rw [runs_first hne hall hc, List.mem_cons] at h
      rcases h with rfl | h
      · exact ⟨hne, hall⟩
      · exact ih h

/-- A text with a character of the kind has a run. -/
theorem runs_ne_nil {text : List α} (h : ∃ c ∈ text, p c = true) : runs p text ≠ [] := by
  induction text using @runs_induction α p with
  | nil =>
      obtain ⟨c, hc, _⟩ := h
      exact absurd hc List.not_mem_nil
  | separator c more hc ih =>
      rw [runs_cons more hc]
      obtain ⟨d, hd, hkind⟩ := h
      rcases List.mem_cons.mp hd with rfl | hd
      · rw [hc] at hkind
        exact absurd hkind Bool.false_ne_true
      · exact ih ⟨d, hd, hkind⟩
  | last r hne hall =>
      rw [runs_self hne hall]
      exact List.cons_ne_nil _ _
  | run r c more hne hall hc ih =>
      rw [runs_first hne hall hc]
      exact List.cons_ne_nil _ _

/-- **The runs, each with a separator**, have room in the text and one more. -/
theorem runs_length_le (text : List α) : ((runs p text).map fun r => r.length + 1).sum ≤ text.length + 1 := by
  induction text using @runs_induction α p with
  | nil => simp
  | separator c more hc ih =>
      rw [runs_cons more hc, List.length_cons]
      omega
  | last r hne hall =>
      rw [runs_self hne hall]
      simp
  | run r c more hne hall hc ih =>
      rw [runs_first hne hall hc, List.map_cons, List.sum_cons, List.length_append, List.length_cons]
      omega

/-! ### Where a run stands -/

/-- A run with what is before and behind it: it could not be longer on either side. -/
structure Maximal (p : α → Bool) (before run after : List α) : Prop where
  nonempty : run ≠ []
  all : ∀ c ∈ run, p c = true
  left : ∀ c ∈ before.getLast?, p c = false
  right : ∀ c ∈ after.head?, p c = false

/-- **Every piece of one kind** is in a maximal run. -/
theorem maximal_around {middle : List α} (hne : middle ≠ []) (hall : ∀ c ∈ middle, p c = true)
    (front back : List α) : ∃ before left right after, front = before ++ left ∧ back = right ++ after ∧
      Maximal p before (left ++ middle ++ right) after ∧ right = back.takeWhile p := by
  refine ⟨front.rdropWhile p, front.rtakeWhile p, back.takeWhile p, back.dropWhile p, ?_, ?_, ?_, rfl⟩
  · exact List.rdropWhile_append_rtakeWhile.symm
  · exact (List.takeWhile_append_dropWhile ..).symm
  · refine ⟨by simp [hne], ?_, ?_, ?_⟩
    · intro c hc
      simp only [List.mem_append] at hc
      rcases hc with (hc | hc) | hc
      · exact List.mem_rtakeWhile_imp hc
      · exact hall c hc
      · exact List.mem_takeWhile_imp hc
    · intro c hc
      obtain ⟨hne', hlast⟩ := List.mem_getLast?_eq_getLast hc
      rw [hlast]
      simpa using List.rdropWhile_last_not p front hne'
    · intro c hc
      have hhead := List.head?_dropWhile_not p back
      rw [hc] at hhead
      simpa using hhead

end ChordDht
