/-
Arrays that are searched from the front.

The position of the first entry that meets a test is a total description of a linear
search.  What an update of one slot does to it is all that a table built on such a
search needs: writing an entry that fails the test over one that fails it changes
nothing, and an entry that meets it is found where it is written, unless there was
one before it.
-/
import Mathlib

namespace ChordDht.Slots

variable {α : Type} {p : α → Bool}

/-! ### The slots before one and those behind it -/

theorem getElem?_between (before : List α) (a : α) (after : List α) :
    (before ++ a :: after)[before.length]? = some a := by
  rw [List.getElem?_append_right (Nat.le_refl _), Nat.sub_self]
  rfl

theorem modify_between (f : α → α) (before : List α) (a : α) (after : List α) :
    (before ++ a :: after).modify before.length f = before ++ f a :: after := by
  induction before with
  | nil => rfl
  | cons b before ih => rw [List.cons_append, List.length_cons, List.modify_succ_cons, ih, List.cons_append]

theorem between_of_getElem? {l : List α} {i : Nat} {a : α} (h : l[i]? = some a) :
    ∃ before after, l = before ++ a :: after ∧ before.length = i := by
  obtain ⟨hlt, rfl⟩ := List.getElem?_eq_some_iff.mp h
  refine ⟨l.take i, l.drop (i + 1), ?_, ?_⟩
  · rw [← List.drop_eq_getElem_cons hlt, List.take_append_drop]
  · rw [List.length_take]
    omega

theorem set_between (before : List α) (a b : α) (after : List α) :
    (before ++ a :: after).set before.length b = before ++ b :: after := by
  rw [List.set_append_right _ _ (Nat.le_refl _), Nat.sub_self, List.set_cons_zero]

/-- Two changes that agree on the slot come to the same. -/
theorem modify_congr {f g : α → α} {l : List α} {i : Nat} (h : ∀ a, l[i]? = some a → f a = g a) :
    l.modify i f = l.modify i g := by
  refine List.ext_getElem? fun j => ?_
  rw [List.getElem?_modify, List.getElem?_modify]
  by_cases hi : i = j
  · subst hi
    cases hslot : l[i]? with
    | none => rfl
    | some a => simp only [if_true, Option.map_eq_map, Option.map_some, h a hslot]
  · simp only [hi, if_false]

/-! ### Searches -/

/-- Where a search stops, if the slot `i` holds neither before nor after a match. -/
theorem findIdx?_set_of_false : ∀ {xs : List α} {i : Nat} {x : α},
    (∀ y, xs[i]? = some y → p y = false) → p x = false → (xs.set i x).findIdx? p = xs.findIdx? p := by
  intro xs
  induction xs with
  | nil => intro i x _ _; rfl
  | cons y ys ih =>
      intro i x hold hnew
      cases i with
      | zero =>
          have hy : p y = false := hold y rfl
          rw [List.set_cons_zero, List.findIdx?_cons, List.findIdx?_cons, hnew, hy]
      | succ i =>
          rw [List.set_cons_succ, List.findIdx?_cons, List.findIdx?_cons,
            ih (fun z hz => hold z (by simpa using hz)) hnew]

/-- A match written into slot `i` is found there if no slot before `i` matches. -/
theorem findIdx?_set_of_true : ∀ {xs : List α} {i : Nat} {x : α}, i < xs.length → p x = true →
    (∀ j y, j < i → xs[j]? = some y → p y = false) → (xs.set i x).findIdx? p = some i := by
  intro xs
  induction xs with
  | nil => intro i x hi _ _; exact absurd hi (Nat.not_lt_zero _)
  | cons y ys ih =>
      intro i x hi hnew hbefore
      cases i with
      | zero => rw [List.set_cons_zero, List.findIdx?_cons, hnew]; rfl
      | succ i =>
          have hy : p y = false := hbefore 0 y (Nat.succ_pos i) rfl
          rw [List.set_cons_succ, List.findIdx?_cons, hy,
            ih (Nat.lt_of_succ_lt_succ hi) hnew
              (fun j z hj hz => hbefore (j + 1) z (Nat.succ_lt_succ hj) (by simpa using hz))]
          rfl

/-- What a search that stops says about the slots. -/
theorem findIdx?_spec {xs : List α} {i : Nat} (h : xs.findIdx? p = some i) :
    ∃ x, xs[i]? = some x ∧ p x = true ∧ ∀ j y, j < i → xs[j]? = some y → p y = false := by
  obtain ⟨hi, hp, hbefore⟩ := List.findIdx?_eq_some_iff_getElem.mp h
  refine ⟨xs[i], List.getElem?_eq_getElem hi, hp, ?_⟩
  intro j y hj hy
  obtain ⟨hlt, rfl⟩ := List.getElem?_eq_some_iff.mp hy
  simpa using hbefore j hj

theorem findIdx?_lt {xs : List α} {i : Nat} (h : xs.findIdx? p = some i) : i < xs.length :=
  (List.findIdx?_eq_some_iff_getElem.mp h).1

/-- A search that runs off the end met nothing. -/
theorem findIdx?_none {xs : List α} (h : xs.findIdx? p = none) {i : Nat} {y : α}
    (hy : xs[i]? = some y) : p y = false := by
  have hall := List.findIdx?_eq_none_iff.mp h
  simpa using hall y (List.mem_of_getElem? hy)

end ChordDht.Slots
