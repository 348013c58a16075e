/-
Texts made of lines.

A line is a byte string without a carriage return; in a text each line is followed by
CR and LF.  Cutting such a text somewhere leaves whole lines and a beginning of the
next one, and there are only two kinds of cuts: the beginning has no carriage return
in it, or it is the line with its carriage return, torn from the line feed.
-/
import ChordDht.Lib.CString
import ChordDht.Lib.Search

namespace ChordDht

def unlines (lines : List Bytes) : Bytes := lines.flatMap (· ++ crlf)

/-- The text is cut between a carriage return and what follows it. -/
def Torn (text : Bytes) (k : Nat) : Prop := 0 < k ∧ k < text.length ∧ text[k - 1]? = some 13

instance (text : Bytes) (k : Nat) : Decidable (Torn text k) := by
  unfold Torn; infer_instance

@[simp] theorem unlines_nil : unlines [] = [] := rfl

theorem unlines_cons (line : Bytes) (lines : List Bytes) :
    unlines (line :: lines) = line ++ crlf ++ unlines lines := List.flatMap_cons

theorem unlines_append (xs ys : List Bytes) : unlines (xs ++ ys) = unlines xs ++ unlines ys :=
  List.flatMap_append

/-- The line ends are the only bytes that are not of a line. -/
theorem notMem_unlines {lines : List Bytes} {b : UInt8} (hb : b ∉ crlf) (h : ∀ line ∈ lines, b ∉ line) :
    b ∉ unlines lines := by
  intro hmem
  obtain ⟨line, hline, hmem⟩ := List.mem_flatMap.mp hmem
  rcases List.mem_append.mp hmem with hmem | hmem
  · exact h line hline hmem
  · exact hb hmem

/-- Inside the first line there is nothing to tear. -/
theorem not_torn_of_le {line rest : Bytes} (hline : (13 : UInt8) ∉ line) {k : Nat}
    (hk : k ≤ line.length) : ¬ Torn (line ++ rest) k := by
  intro ⟨hpos, _, hcr⟩
  rw [List.getElem?_append_left (by omega)] at hcr
  exact hline (List.mem_of_getElem? hcr)

/-- Behind the first line the text is torn where the rest of it is. -/
theorem torn_behind {line rest : Bytes} {k : Nat} :
    Torn (line ++ crlf ++ rest) (line.length + 2 + k) ↔ Torn rest k := by
  have hlen : (line ++ crlf).length = line.length + 2 := by simp [crlf]
  unfold Torn
  rw [List.length_append, hlen]
  cases k with
  | zero =>
      have hlf : (line ++ crlf ++ rest)[line.length + 2 + 0 - 1]? = some 10 := by
        rw [List.getElem?_append_left (by omega), List.getElem?_append_right (by omega)]
        have hone : line.length + 2 + 0 - 1 - line.length = 1 := by omega
        rw [hone]
        rfl
      rw [hlf]
      simp
  | succ k =>
      have hget : (line ++ crlf ++ rest)[line.length + 2 + (k + 1) - 1]? = rest[k + 1 - 1]? := by
        rw [List.getElem?_append_right (by omega), hlen]
        congr 1
        omega
      rw [hget]
      constructor
      · intro ⟨_, hlt, hcr⟩
        exact ⟨by omega, by omega, hcr⟩
      · intro ⟨_, hlt, hcr⟩
        exact ⟨by omega, by omega, hcr⟩

/-- **Where a cut can fall.** -/
theorem cut_unlines : ∀ {lines : List Bytes}, (∀ line ∈ lines, (13 : UInt8) ∉ line) →
    ∀ {k : Nat}, k < (unlines lines).length →
      ∃ full line more, lines = full ++ line :: more ∧
        ((¬ Torn (unlines lines) k ∧
            ∃ j ≤ line.length, (unlines lines).take k = unlines full ++ line.take j) ∨
          (Torn (unlines lines) k ∧ (unlines lines).take k = unlines full ++ (line ++ [13]))) := by
  intro lines
  induction lines with
  | nil => intro _ k hk; exact absurd hk (Nat.not_lt_zero k)
  | cons line lines ih =>
      intro hlines k hk
      have hline := hlines line (List.mem_cons_self ..)
      have hlen : (line ++ crlf).length = line.length + 2 := by simp [crlf]
      rw [unlines_cons] at hk ⊢
      by_cases hin : k ≤ line.length
      · refine ⟨[], line, lines, rfl, Or.inl ⟨?_, k, hin, ?_⟩⟩
        · rw [List.append_assoc]
          exact not_torn_of_le hline hin
        · rw [List.append_assoc, List.take_append_of_le_length hin, unlines_nil, List.nil_append]
      · by_cases hcr : k = line.length + 1
        · refine ⟨[], line, lines, rfl, Or.inr ⟨⟨by omega, hk, ?_⟩, ?_⟩⟩
          · rw [hcr, Nat.add_sub_cancel, List.append_assoc, List.getElem?_append_right (Nat.le_refl _),
              Nat.sub_self]
            rfl
          · rw [hcr, List.append_assoc, List.take_length_add_append]
            rfl
        · obtain ⟨j, rfl⟩ : ∃ j, k = line.length + 2 + j := ⟨k - (line.length + 2), by omega⟩
          rw [List.length_append, hlen] at hk
          obtain ⟨full, line', more, hsplit, hcut⟩ :=
            ih (fun l hl => hlines l (List.mem_cons_of_mem _ hl)) (k := j) (by omega)
          have htake : (line ++ crlf ++ unlines lines).take (line.length + 2 + j)
              = line ++ crlf ++ (unlines lines).take j := by
            rw [← hlen, List.take_length_add_append]
          refine ⟨line :: full, line', more, by rw [hsplit]; rfl, ?_⟩
          rw [torn_behind, htake, unlines_cons]
          rcases hcut with ⟨hnot, i, hi, htext⟩ | ⟨htorn, htext⟩
          · exact Or.inl ⟨hnot, i, hi, by rw [htext, List.append_assoc (line ++ crlf)]⟩
          · exact Or.inr ⟨htorn, by rw [htext, List.append_assoc (line ++ crlf)]⟩

/-- **How a text begins**: it is part of a line, or has a carriage return without its line
feed, or begins with a whole line. -/
theorem line_cases (text : Bytes) :
    (13 : UInt8) ∉ text ∨
      (∃ part tail, text = part ++ 13 :: tail ∧ (13 : UInt8) ∉ part ∧ tail.headD 0 ≠ 10) ∨
      ∃ line rest, text = line ++ crlf ++ rest ∧ (13 : UInt8) ∉ line := by
  by_cases hmem : (13 : UInt8) ∈ text
  · obtain ⟨line, tail, htext, hline⟩ := List.eq_append_cons_of_mem hmem
    refine Or.inr ?_
    by_cases hfeed : tail.headD 0 = 10
    · cases tail with
      | nil => cases hfeed
      | cons b rest =>
          refine Or.inr ⟨line, rest, ?_, hline⟩
          have hb : b = 10 := hfeed
          rw [htext, hb, crlf]
          simp
    · exact Or.inl ⟨line, tail, htext, hline, hfeed⟩
  · exact Or.inl hmem

/-! ### Finding line ends -/

/-- Nothing that begins with a carriage return begins inside a line. -/
theorem not_prefix_in_line {line t rest : Bytes} (hline : (13 : UInt8) ∉ line) {j : Nat}
    (hj : j < line.length) : ¬ (13 :: t) <+: (line ++ rest).drop j := by
  intro ⟨u, hu⟩
  have hget := congrArg (·[0]?) hu
  simp only [List.cons_append, List.getElem?_cons_zero, List.getElem?_drop, Nat.add_zero] at hget
  rw [List.getElem?_append_left hj] at hget
  exact hline (List.mem_of_getElem? hget.symm)

/-- What begins with a carriage return is looked for behind the line. -/
theorem search_behind_line {line needle : Bytes} (hline : (13 : UInt8) ∉ line)
    (hneedle : needle.head? = some 13) (hay : Bytes) :
    search needle (line ++ hay) = (search needle hay).map (line.length + ·) := by
  obtain ⟨t, rfl⟩ : ∃ t, needle = 13 :: t := List.head?_eq_some_iff.mp hneedle
  exact search_skip fun j hj => not_prefix_in_line hline hj

/-- The first line end is behind the first line. -/
theorem search_crlf {line : Bytes} (hline : (13 : UInt8) ∉ line) (rest : Bytes) :
    search crlf (line ++ crlf ++ rest) = some line.length := by
  rw [List.append_assoc, search_behind_line hline rfl]
  have hzero : search crlf (crlf ++ rest) = some 0 :=
    search_eq_some.mpr ⟨Nat.zero_le _, List.prefix_append _ _, fun j hj => absurd hj (Nat.not_lt_zero j)⟩
  rw [hzero]
  rfl

/-- **Two line ends in a row** come first behind the last of the lines. -/
theorem search_crlf_crlf {rest : Bytes} : ∀ {lines : List Bytes} {line : Bytes},
    (∀ l ∈ line :: lines, l ≠ [] ∧ (13 : UInt8) ∉ l) →
      search (crlf ++ crlf) (unlines (line :: lines) ++ crlf ++ rest)
        = some ((unlines (line :: lines)).length - 2) := by
  intro lines
  induction lines with
  | nil =>
      intro line hlines
      have hline := (hlines line (List.mem_cons_self ..)).2
      have htext : unlines [line] ++ crlf ++ rest = line ++ (crlf ++ crlf ++ rest) := by
        simp [unlines]
      have hzero : search (crlf ++ crlf) (crlf ++ crlf ++ rest) = some 0 :=
        search_eq_some.mpr
          ⟨Nat.zero_le _, List.prefix_append _ _, fun j hj => absurd hj (Nat.not_lt_zero j)⟩
      have hlen : (unlines [line]).length - 2 = line.length := by
        simp [unlines, crlf]
      rw [htext, search_behind_line hline rfl, hzero, hlen]
      rfl
  | cons l ls ih =>
      intro line hlines
      have hline := (hlines line (List.mem_cons_self ..)).2
      have hnext := hlines l (List.mem_cons_of_mem _ (List.mem_cons_self ..))
      have hlen : (line ++ crlf).length = line.length + 2 := by simp [crlf]
      have hpos : 2 ≤ (unlines (l :: ls)).length := by
        rw [unlines_cons, List.length_append, List.length_append]
        simp [crlf]
        omega
      rw [unlines_cons, List.append_assoc, List.append_assoc, search_skip, ← List.append_assoc,
        ih fun q hq => hlines q (List.mem_cons_of_mem _ hq)]
      · show some ((line ++ crlf).length + _) = _
        rw [@List.length_append _ (line ++ crlf), hlen]
        congr 1
        omega
      · intro j hj hc
        by_cases hin : j < line.length
        · rw [List.append_assoc] at hc
          exact not_prefix_in_line hline hin hc
        · rw [hlen] at hj
          -- behind the line end stands the next line
          obtain ⟨b, l', rfl⟩ := List.exists_cons_of_ne_nil hnext.1
          have hb : b ≠ 13 := fun h => hnext.2 (h ▸ List.mem_cons_self ..)
          obtain ⟨u, hu⟩ := hc
          rcases (show j = line.length ∨ j = line.length + 1 by omega) with rfl | rfl
          · rw [List.append_assoc line, List.drop_left, unlines_cons] at hu
            simp [crlf] at hu
            exact hb hu.1.symm
          · rw [List.append_assoc line, List.drop_length_add_append] at hu
            simp [crlf] at hu

/-- **Line by line to the first empty line.**  In front of two line ends in a row there is a
whole line, and its end is followed by two line ends in a row as far on as before. -/
theorem first_line_end {text : Bytes} {e : Nat} (h : search (crlf ++ crlf) text = some e) :
    ∃ line rest, text = line ++ crlf ++ rest ∧ search crlf text = some line.length ∧ line.length ≤ e ∧
      search (crlf ++ crlf) (crlf ++ rest) = some (e - line.length) := by
  obtain ⟨he, hneedle, -⟩ := search_eq_some.mp h
  have hhead : crlf <+: text.drop e := (List.prefix_append crlf crlf).trans hneedle
  obtain ⟨q, hq, hfound⟩ := search_of_prefix hhead
  obtain ⟨hqlen, ⟨rest, hrest⟩, -⟩ := search_eq_some.mp hfound
  have hlen : (text.take q).length = q := List.length_take_of_le hqlen
  refine ⟨text.take q, rest, ?_, ?_, ?_, ?_⟩
  · rw [List.append_assoc, hrest, List.take_append_drop]
  · rw [hlen, hfound]
  · rw [hlen]
    exact hq
  · rw [hrest, hlen]
    exact search_drop h hq

/-- Behind a line end the next line is empty, or it is whole and the empty line is behind it. -/
theorem next_line_end {text : Bytes} {d : Nat} (h : search (crlf ++ crlf) (crlf ++ text) = some d) :
    (d = 0 ∧ crlf <+: text) ∨
    ∃ line rest, text = line ++ crlf ++ rest ∧ line ≠ [] ∧ search crlf text = some line.length ∧ line.length + 2 ≤ d ∧
      search (crlf ++ crlf) (crlf ++ rest) = some (d - (line.length + 2)) := by
  obtain ⟨hd, hneedle, hfirst⟩ := search_eq_some.mp h
  cases d with
  | zero =>
      rw [List.drop_zero, List.prefix_append_right_inj] at hneedle
      exact Or.inl ⟨rfl, hneedle⟩
  | succ d =>
      cases d with
      | zero =>
          -- a line feed does not begin a line end
          obtain ⟨t, ht⟩ := hneedle
          cases ht
      | succ d =>
          have htext : search (crlf ++ crlf) text = some d := search_drop h (show 2 ≤ d + 2 by omega)
          obtain ⟨line, rest, heq, hfound, hle, hrest⟩ := first_line_end htext
          refine Or.inr ⟨line, rest, heq, ?_, hfound, by omega, ?_⟩
          · rintro rfl
            refine hfirst 0 (by omega) ?_
            rw [List.drop_zero, heq, List.nil_append, List.prefix_append_right_inj]
            exact List.prefix_append ..
          · rw [hrest]
            congr 1
            omega

end ChordDht
