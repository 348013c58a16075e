/-
Where the collected replies are cut for the reduce requests.

The distributor looks for a digit with a letter behind it, from the end of the payload
down.  In a text of tokens there is such a place only where a token begins, so every cut
is between two tokens: `toCopy_cut`.
-/
import ChordDht.WordCount.Distributor
import ChordDht.WordCount.MapReply

namespace ChordDht.WordCount

/-! ### The search -/

/-- The places the search stops at. -/
def SafeSplit (data : Bytes) (i : Nat) : Prop :=
  isDigit (data.getD (i - 1) 0) = true ∧ isAlpha (data.getD i 0) = true

theorem findSafeSplitFrom_spec (data : Bytes) : ∀ {n i : Nat}, findSafeSplitFrom data n = some i →
    0 < i ∧ i ≤ n ∧ SafeSplit data i := by
  intro n
  induction n with
  | zero => intro i h; cases h
  | succ n ih =>
      intro i h
      rw [findSafeSplitFrom] at h
      by_cases hsafe : (isDigit (data.getD n 0) && isAlpha (data.getD (n + 1) 0)) = true
      · rw [if_pos hsafe, Option.some.injEq] at h
        subst h
        exact ⟨Nat.succ_pos n, Nat.le_refl _, Bool.and_eq_true_iff.mp hsafe⟩
      · rw [if_neg hsafe] at h
        obtain ⟨hpos, hle, hsplit⟩ := ih h
        exact ⟨hpos, Nat.le_succ_of_le hle, hsplit⟩

theorem findSafeSplitFrom_isSome (data : Bytes) : ∀ {n i : Nat}, 0 < i → i ≤ n → SafeSplit data i →
    ∃ j, findSafeSplitFrom data n = some j := by
  intro n
  induction n with
  | zero => intro i hpos hle; omega
  | succ n ih =>
      intro i hpos hle hsplit
      rw [findSafeSplitFrom]
      by_cases hsafe : (isDigit (data.getD n 0) && isAlpha (data.getD (n + 1) 0)) = true
      · rw [if_pos hsafe]
        exact ⟨n + 1, rfl⟩
      · rw [if_neg hsafe]
        refine ih hpos ?_ hsplit
        refine Nat.lt_succ_iff.mp (Nat.lt_of_le_of_ne hle ?_)
        rintro rfl
        exact hsafe (Bool.and_eq_true_iff.mpr hsplit)

/-! ### Text of tokens -/

theorem mapEntry_pos {t : Bytes × ℤ} (h : Token t) : 0 < (mapEntry t).length := by
  have hlen := mapEntry_length (Int.le_of_lt h.pos)
  have hpos := h.pos
  omega

/-- A token begins with a letter. -/
theorem mapEntry_head {t : Bytes × ℤ} (h : Token t) (rest : Bytes) :
    isAlpha ((mapEntry t ++ rest).getD 0 0) = true := by
  obtain ⟨c, word, hword⟩ := List.exists_cons_of_ne_nil h.nonempty
  rw [mapEntry, hword]
  exact h.letters c (by rw [hword]; exact List.mem_cons_self ..)

/-- It ends with a digit. -/
theorem mapEntry_last {t : Bytes × ℤ} (h : Token t) (rest : Bytes) :
    isDigit ((mapEntry t ++ rest).getD ((mapEntry t).length - 1) 0) = true := by
  have hpos := h.pos
  have hlen : (mapEntry t).length = t.1.length + t.2.toNat := by
    rw [mapEntry, List.length_append, List.length_replicate]
  have hlast : (mapEntry t ++ rest)[(mapEntry t).length - 1]? = some 49 := by
    rw [List.getElem?_append_left (by omega), mapEntry, List.getElem?_append_right, List.getElem?_replicate,
      if_pos]
    · rw [← mapEntry]
      omega
    · rw [← mapEntry]
      omega
  rw [List.getD_eq_getElem?_getD, hlast]
  rfl

/-- Inside a token no letter is behind a digit. -/
theorem not_safeSplit_inside {t : Bytes × ℤ} (h : Token t) (rest : Bytes) {i : Nat} (hpos : 0 < i)
    (hi : i < (mapEntry t).length) : ¬ SafeSplit (mapEntry t ++ rest) i := by
  intro ⟨hdigit, halpha⟩
  rw [List.getD_eq_getElem?_getD, List.getElem?_append_left (by omega)] at hdigit halpha
  by_cases hword : i < t.1.length
  · -- the byte before is a letter of the word
    have hbefore : i - 1 < t.1.length := by omega
    rw [mapEntry, List.getElem?_append_left hbefore, List.getElem?_eq_getElem hbefore] at hdigit
    have hletter := h.letters _ (List.getElem_mem hbefore)
    rw [Option.getD_some] at hdigit
    rw [not_isAlpha_of_isDigit hdigit] at hletter
    exact Bool.false_ne_true hletter
  · -- the byte itself is one of the ones
    rw [mapEntry, List.length_append, List.length_replicate] at hi
    rw [mapEntry, List.getElem?_append_right (by omega), List.getElem?_replicate, if_pos (by omega)] at halpha
    exact absurd halpha (by decide)

/-- **A cut is between two tokens.** -/
theorem cut_of_safeSplit : ∀ {ts : List (Bytes × ℤ)}, (∀ t ∈ ts, Token t) → ∀ {i : Nat}, 0 < i →
    i < (ts.flatMap mapEntry).length → SafeSplit (ts.flatMap mapEntry) i →
      ∃ front back, ts = front ++ back ∧ i = (front.flatMap mapEntry).length := by
  intro ts
  induction ts with
  | nil => intro _ i _ hi; exact absurd hi (Nat.not_lt_zero i)
  | cons t ts ih =>
      intro hts i hpos hi hsplit
      have ht := hts t (List.mem_cons_self ..)
      rw [List.flatMap_cons] at hi hsplit
      rcases Nat.lt_trichotomy i (mapEntry t).length with hlt | heq | hgt
      · exact absurd hsplit (not_safeSplit_inside ht _ hpos hlt)
      · exact ⟨[t], ts, rfl, by simpa using heq⟩
      · obtain ⟨j, rfl⟩ : ∃ j, i = (mapEntry t).length + (j + 1) := ⟨i - (mapEntry t).length - 1, by omega⟩
        have hrest : SafeSplit (ts.flatMap mapEntry) (j + 1) := by
          obtain ⟨hdigit, halpha⟩ := hsplit
          have hbefore : (mapEntry t).length + (j + 1) - 1 = (mapEntry t).length + j := by omega
          rw [hbefore, List.getD_append_right _ _ _ _ (by omega), Nat.add_sub_cancel_left] at hdigit
          rw [List.getD_append_right _ _ _ _ (by omega), Nat.add_sub_cancel_left] at halpha
          exact ⟨hdigit, halpha⟩
        rw [List.length_append] at hi
        obtain ⟨front, back, rfl, hlen⟩ :=
          ih (fun u hu => hts u (List.mem_cons_of_mem _ hu)) (Nat.succ_pos j) (by omega) hrest
        refine ⟨t :: front, back, rfl, ?_⟩
        rw [List.flatMap_cons, List.length_append, ← hlen]

/-- Behind the first token there is a place to cut. -/
theorem safeSplit_first {t u : Bytes × ℤ} (ht : Token t) (hu : Token u) (rest : Bytes) :
    SafeSplit (mapEntry t ++ (mapEntry u ++ rest)) (mapEntry t).length := by
  refine ⟨mapEntry_last ht _, ?_⟩
  rw [List.getD_append_right _ _ _ _ (Nat.le_refl _), Nat.sub_self]
  exact mapEntry_head hu rest

/-- **A place to cut is found** when more is left than a payload holds. -/
theorem findSafeSplitFrom_tokens {ts : List (Bytes × ℤ)} (hts : ∀ t ∈ ts, Token t)
    (hroom : ∀ t ∈ ts, (mapEntry t).length ≤ payloadMax) (hlong : payloadMax < (ts.flatMap mapEntry).length) :
    ∃ i, findSafeSplitFrom (ts.flatMap mapEntry) payloadMax = some i := by
  obtain ⟨t, more, rfl⟩ : ∃ t more, ts = t :: more := by
    refine List.exists_cons_of_ne_nil ?_
    rintro rfl
    exact absurd hlong (Nat.not_lt_zero _)
  have ht := hts t (List.mem_cons_self ..)
  have htroom := hroom t (List.mem_cons_self ..)
  obtain ⟨u, rest, rfl⟩ : ∃ u rest, more = u :: rest := by
    refine List.exists_cons_of_ne_nil ?_
    rintro rfl
    rw [List.flatMap_singleton] at hlong
    omega
  have hu := hts u (List.mem_cons_of_mem _ (List.mem_cons_self ..))
  exact findSafeSplitFrom_isSome _ (mapEntry_pos ht) htroom (safeSplit_first ht hu (rest.flatMap mapEntry))

/-- **What goes into a payload** is some of the tokens, if each of them has room in one. -/
theorem toCopy_cut {ts : List (Bytes × ℤ)} (hts : ∀ t ∈ ts, Token t) (hne : ts ≠ [])
    (hroom : ∀ t ∈ ts, (mapEntry t).length ≤ payloadMax) :
    ∃ front back, ts = front ++ back ∧ front ≠ [] ∧ (front.flatMap mapEntry).length ≤ payloadMax ∧
      toCopy (ts.flatMap mapEntry) = (front.flatMap mapEntry).length := by
  by_cases hlong : payloadMax < (ts.flatMap mapEntry).length
  · obtain ⟨i, hi⟩ := findSafeSplitFrom_tokens hts hroom hlong
    obtain ⟨hpos, hle, hsplit⟩ := findSafeSplitFrom_spec _ hi
    obtain ⟨front, back, heq, hlen⟩ := cut_of_safeSplit hts hpos (Nat.lt_of_le_of_lt hle hlong) hsplit
    refine ⟨front, back, heq, ?_, by omega, ?_⟩
    · rintro rfl
      rw [hlen] at hpos
      exact Nat.lt_irrefl 0 hpos
    · have hsafe : findSafeSplit (ts.flatMap mapEntry) payloadMax = i := by
        rw [findSafeSplit, hi, Option.getD_some]
      simp only [toCopy, if_pos hlong, hsafe]
      split
      · exact hlen
      · omega
  · refine ⟨ts, [], (List.append_nil ts).symm, hne, by omega, ?_⟩
    rw [toCopy, if_neg hlong]

/-! ### All payloads -/

/-- What is copied to `payload_buf` in each turn of the reduce loop, over what is left of the
collected replies. -/
def payloads : Nat → Bytes → Outcome (List Bytes)
  | 0, _ => .diverges
  | turns + 1, data =>
      if data = [] then .returns []
      else do
        let rest ← payloads turns (data.drop (toCopy data))
        return data.take (toCopy data) :: rest

theorem map_ne_nil {ts : List (Bytes × ℤ)} (hts : ∀ t ∈ ts, Token t) (hne : ts ≠ []) :
    ts.flatMap mapEntry ≠ [] := by
  obtain ⟨t, more, rfl⟩ := List.exists_cons_of_ne_nil hne
  have ht := mapEntry_pos (hts t (List.mem_cons_self ..))
  rw [List.flatMap_cons, ← List.length_pos_iff, List.length_append]
  omega

/-- **The payloads are groups of tokens**, and the loop ends after a turn for each. -/
theorem payloads_tokens {ts : List (Bytes × ℤ)} (hts : ∀ t ∈ ts, Token t)
    (hroom : ∀ t ∈ ts, (mapEntry t).length ≤ payloadMax) :
    ∃ groups : List (List (Bytes × ℤ)), groups.flatten = ts ∧
      (∀ g ∈ groups, g ≠ [] ∧ (g.flatMap mapEntry).length ≤ payloadMax) ∧
      ∀ turns, ts.length < turns →
        payloads turns (ts.flatMap mapEntry) = .returns (groups.map fun g => g.flatMap mapEntry) := by
  induction hlen : ts.length using Nat.strong_induction_on generalizing ts with
  | _ n ih =>
      by_cases hne : ts = []
      · subst hne
        refine ⟨[], rfl, fun g hg => absurd hg List.not_mem_nil, ?_⟩
        intro turns hturns
        obtain ⟨turns, rfl⟩ : ∃ k, turns = k + 1 := ⟨turns - 1, by omega⟩
        rfl
      · obtain ⟨front, back, rfl, hfront, hpayload, hcopy⟩ := toCopy_cut hts hne hroom
        have hpos := List.length_pos_iff.mpr hfront
        rw [List.length_append] at hlen
        obtain ⟨groups, hflat, hgroups, hall⟩ := ih back.length (by omega)
          (fun t ht => hts t (List.mem_append_right _ ht)) (fun t ht => hroom t (List.mem_append_right _ ht)) rfl
        refine ⟨front :: groups, by rw [List.flatten_cons, hflat], ?_, ?_⟩
        · intro g hg
          rcases List.mem_cons.mp hg with rfl | hg
          · exact ⟨hfront, hpayload⟩
          · exact hgroups g hg
        · intro turns hturns
          obtain ⟨turns, rfl⟩ : ∃ k, turns = k + 1 := ⟨turns - 1, by omega⟩
          have hdata : (front ++ back).flatMap mapEntry = front.flatMap mapEntry ++ back.flatMap mapEntry :=
            List.flatMap_append
          rw [payloads, if_neg (map_ne_nil hts hne), hcopy, hdata, List.take_left, List.drop_left,
            hall turns (by omega), Outcome.returns_bind]
          rfl

end ChordDht.WordCount
