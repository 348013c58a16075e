/-
Runs of one kind with a run of another kind right behind them.

A place is where a maximal run of `p` begins that a maximal run of `q` follows at once; what
stands there are the two runs.  The places of a text are found position by position, without
reading anything in order.  A machine that does read in order meets them through the three
equations: a separator has no place, nor has a run up to the end, and a run up to another
character is a place if that one is of the second kind.
-/
import ChordDht.Lib.Runs

namespace ChordDht

variable {α : Type} {p q : α → Bool}

/-- What stands at a position, if it is a place. -/
def placeAt (p q : α → Bool) (text : List α) (i : Nat) : Option (List α × List α) :=
  let run := (text.drop i).takeWhile p
  let mark := ((text.drop i).dropWhile p).takeWhile q
  if run.isEmpty || mark.isEmpty || (text.take i).getLast?.any p then none else some (run, mark)

/-- What stands at the places of a text. -/
def places (p q : α → Bool) (text : List α) : List (List α × List α) :=
  (List.range text.length).filterMap (placeAt p q text)

/-- **A place** is a maximal run with a maximal run of the other kind behind it. -/
theorem placeAt_eq_some (hpq : ∀ c, q c = true → p c = false) {text run mark : List α} {i : Nat} :
    placeAt p q text i = some (run, mark) ↔ ∃ before after, before.length = i ∧
      text = before ++ (run ++ (mark ++ after)) ∧ Maximal p before run (mark ++ after) ∧
      Maximal q (before ++ run) mark after := by
  unfold placeAt
  constructor
  · intro h
    simp only [Option.ite_none_left_eq_some, Bool.or_eq_true, not_or, Option.some.injEq, Prod.mk.injEq,
      List.isEmpty_iff] at h
    obtain ⟨⟨⟨hrun, hmark⟩, hlast⟩, rfl, rfl⟩ := h
    have hi : i < text.length := by
      refine Nat.lt_of_not_le fun hle => hrun ?_
      rw [List.drop_eq_nil_of_le hle]
      rfl
    have hfront := (List.takeWhile_append_dropWhile (p := p) (l := text.drop i)).symm
    have hback := (List.takeWhile_append_dropWhile (p := q) (l := (text.drop i).dropWhile p)).symm
    have hrest : (text.drop i).dropWhile p = ((text.drop i).dropWhile p).takeWhile q ++
      ((text.drop i).dropWhile p).dropWhile q := hback
    refine ⟨text.take i, ((text.drop i).dropWhile p).dropWhile q, by rw [List.length_take]; omega, ?_,
      ⟨hrun, fun c hc => List.mem_takeWhile_imp hc, ?_, ?_⟩, ⟨hmark, fun c hc => List.mem_takeWhile_imp hc, ?_, ?_⟩⟩
    · rw [← hrest, ← hfront, List.take_append_drop]
    · intro c hc
      rw [Option.mem_def.mp hc] at hlast
      simpa using hlast
    · intro c hc
      rw [← hrest] at hc
      have hhead := List.head?_dropWhile_not p (text.drop i)
      rw [Option.mem_def.mp hc] at hhead
      simpa using hhead
    · intro c hc
      rw [List.getLast?_append_of_ne_nil _ hrun] at hc
      have hkind := List.mem_takeWhile_imp (List.mem_of_getLast? hc)
      cases hq : q c with
      | false => rfl
      | true =>
          rw [hpq c hq] at hkind
          exact absurd hkind Bool.false_ne_true
    · intro c hc
      have hhead := List.head?_dropWhile_not q ((text.drop i).dropWhile p)
      rw [Option.mem_def.mp hc] at hhead
      simpa using hhead
  · rintro ⟨before, after, rfl, rfl, hrun, hmark⟩
    have hstop : ∀ (k : α → Bool) {front back : List α}, (∀ c ∈ front, k c = true) →
        (∀ c ∈ back.head?, k c = false) → (front ++ back).takeWhile k = front ∧ (front ++ back).dropWhile k = back := by
      intro k front back hfront hback
      rw [List.takeWhile_append_of_pos hfront, List.dropWhile_append_of_pos hfront]
      cases back with
      | nil => simp
      | cons c back => simp [hback c rfl]
    obtain ⟨htake, hdrop⟩ := hstop p hrun.all hrun.right
    obtain ⟨htake', -⟩ := hstop q hmark.all hmark.right
    have hlast : before.getLast?.any p = false := by
      cases hlast : before.getLast? with
      | none => rfl
      | some c => exact hrun.left c hlast
    simp only [List.drop_left, List.take_left, htake, hdrop, htake', hlast, Bool.or_false, Bool.or_eq_true,
      List.isEmpty_iff]
    rw [if_neg fun hc => hc.elim hrun.nonempty hmark.nonempty]

theorem mem_places {text : List α} {place : List α × List α} :
    place ∈ places p q text ↔ ∃ i, placeAt p q text i = some place := by
  unfold places
  rw [List.mem_filterMap]
  constructor
  · rintro ⟨i, -, hat⟩
    exact ⟨i, hat⟩
  · rintro ⟨i, hat⟩
    refine ⟨i, List.mem_range.mpr (Nat.lt_of_not_le fun hle => ?_), hat⟩
    unfold placeAt at hat
    simp [List.drop_eq_nil_of_le hle] at hat

/-! ### Reading from the left -/

theorem placeAt_append {front : List α} (hlast : ∀ c ∈ front.getLast?, p c = false) (rest : List α) (j : Nat) :
    placeAt p q (front ++ rest) (front.length + j) = placeAt p q rest j := by
  have hend : ((front ++ rest).take (front.length + j)).getLast?.any p = (rest.take j).getLast?.any p := by
    rw [List.take_length_add_append]
    by_cases h : rest.take j = []
    · rw [h, List.append_nil]
      cases hfront : front.getLast? with
      | none => rfl
      | some c => exact hlast c hfront
    · rw [List.getLast?_append_of_ne_nil _ h]
  unfold placeAt
  rw [hend, List.drop_length_add_append]

/-- Behind something that is no run the places are those of the rest. -/
theorem places_append {front : List α} (hlast : ∀ c ∈ front.getLast?, p c = false) (rest : List α) :
    places p q (front ++ rest)
      = (List.range front.length).filterMap (placeAt p q (front ++ rest)) ++ places p q rest := by
  unfold places
  rw [List.length_append, List.range_add, List.filterMap_append, List.filterMap_map]
  refine congrArg _ (List.filterMap_congr ?_)
  intro j _
  exact placeAt_append hlast rest j

/-- Where no run begins there is no place. -/
theorem placeAt_of_head {text : List α} {i : Nat} (h : ∀ c ∈ (text.drop i).head?, p c = false) :
    placeAt p q text i = none := by
  unfold placeAt
  cases hdrop : text.drop i with
  | nil => rfl
  | cons c rest =>
      have hc : p c = false := h c (by rw [hdrop]; rfl)
      simp [hc]

/-- Nor is there one inside a run. -/
theorem placeAt_of_last {text : List α} {i : Nat} {c : α} (hlast : (text.take i).getLast? = some c) (hc : p c = true) :
    placeAt p q text i = none := by
  unfold placeAt
  simp [hlast, hc]

@[simp] theorem places_nil : places p q ([] : List α) = [] := rfl

/-- **A separator** is passed. -/
theorem places_cons (more : List α) {c : α} (hc : p c = false) : places p q (c :: more) = places p q more := by
  have hnone : placeAt p q (c :: more) 0 = none := placeAt_of_head fun d hd => by
    obtain rfl : c = d := by simpa using hd
    exact hc
  have happend := @places_append α p q [c] (fun d hd => by simp at hd; rw [← hd]; exact hc) more
  rw [List.singleton_append] at happend
  rw [happend]
  simp [hnone]

/-- **A run up to the end** is none. -/
theorem places_self {run : List α} (hall : ∀ c ∈ run, p c = true) : places p q run = [] := by
  unfold places
  rw [List.filterMap_eq_nil_iff]
  intro i _
  have hdrop : (run.drop i).dropWhile p = [] := by
    rw [List.dropWhile_eq_nil_iff]
    exact fun c hc => hall c (List.mem_of_mem_drop hc)
  unfold placeAt
  simp [hdrop]

/-- **A run up to another character** is one if that is of the other kind. -/
theorem places_run {run : List α} (hne : run ≠ []) (hall : ∀ c ∈ run, p c = true) {c : α} (hc : p c = false)
    (more : List α) : places p q (run ++ c :: more)
      = (if q c then [(run, c :: more.takeWhile q)] else []) ++ places p q more := by
  have hjoin : run ++ c :: more = (run ++ [c]) ++ more := by simp
  rw [hjoin, places_append (by simp [hc]), ← hjoin]
  refine congrArg (· ++ _) ?_
  have hlength : (run ++ [c]).length = run.length + 1 := by simp
  rw [hlength, List.range_succ_eq_map, List.filterMap_cons]
  have hrest : ((List.range run.length).map Nat.succ).filterMap (placeAt p q (run ++ c :: more)) = [] := by
    rw [List.filterMap_eq_nil_iff]
    intro i hi
    obtain ⟨j, hj, rfl⟩ := List.mem_map.mp hi
    rw [List.mem_range] at hj
    refine placeAt_of_last (c := run[j]) ?_ (hall _ (List.getElem_mem hj))
    rw [List.take_append_of_le_length (by omega), ← List.take_append_getElem hj, List.getLast?_concat]
  have hfirst : placeAt p q (run ++ c :: more) 0 = if q c then some (run, c :: more.takeWhile q) else none := by
    unfold placeAt
    rw [List.drop_zero, List.takeWhile_append_of_pos hall, List.dropWhile_append_of_pos hall,
      List.takeWhile_cons_of_neg (by simp [hc]), List.dropWhile_cons_of_neg (by simp [hc]), List.append_nil]
    have hrun : run.isEmpty = false := by simpa using hne
    cases hq : q c with
    | true => simp [hq, hrun]
    | false => simp [hq]
  rw [hrest, hfirst]
  cases q c with
  | true => rfl
  | false => rfl

/-! ### Texts one behind the other -/

theorem takeWhile_apart {rest : List α} (hrest : ∀ c ∈ rest.head?, q c = false) (text : List α) :
    (text ++ rest).takeWhile q = text.takeWhile q := by
  induction text with
  | nil =>
      cases rest with
      | nil => rfl
      | cons c rest => exact List.takeWhile_cons_of_neg (by simp [hrest c rfl])
  | cons c text ih =>
      rw [List.cons_append, List.takeWhile_cons, List.takeWhile_cons, ih]

/-- **Texts that do not touch**: the first does not end with a character of the first kind, the
second does not begin with one of the other.  Their places are those of both. -/
theorem places_apart {rest : List α} (hrest : ∀ c ∈ rest.head?, q c = false) (text : List α) :
    (∀ c ∈ text.getLast?, p c = false) → places p q (text ++ rest) = places p q text ++ places p q rest := by
  have htail : ∀ {front more : List α}, (∀ c ∈ (front ++ more).getLast?, p c = false) →
      ∀ c ∈ more.getLast?, p c = false := by
    intro front more hlast c hc
    refine hlast c ?_
    rw [List.getLast?_append, Option.mem_def.mp hc]
    rfl
  induction text using @runs_induction α p with
  | nil => intro _; rfl
  | separator c more hc ih =>
      intro hlast
      rw [List.cons_append, places_cons _ hc, places_cons _ hc, ih (@htail [c] more hlast)]
  | last run hne hall =>
      intro hlast
      obtain ⟨front, d, rfl⟩ := (List.eq_nil_or_concat run).resolve_left hne
      have hd := hall d (by simp)
      rw [hlast d (by simp)] at hd
      exact absurd hd Bool.false_ne_true
  | run run c more hne hall hc ih =>
      intro hlast
      have hmore := @htail (run ++ [c]) more (by rwa [List.append_assoc, List.singleton_append])
      rw [List.append_assoc, List.cons_append, places_run hne hall hc, places_run hne hall hc, ih hmore,
        takeWhile_apart hrest, List.append_assoc]

end ChordDht
