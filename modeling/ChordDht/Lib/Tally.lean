/-
Tallies: what a list of keyed amounts comes to, key by key.

`tally` adds up the amounts under a key.  A list in which no key comes twice is a
summary of every list with the same tallies, and if its amounts are positive it can be
read off them: it holds a key exactly when there is something under it.
-/
import ChordDht.Lib.FiniteMap

namespace ChordDht

variable {κ : Type} [DecidableEq κ]

/-- The amounts under the key, added up. -/
def tally (ts : List (κ × ℤ)) (k : κ) : ℤ := ((ts.filter fun t => t.1 = k).map Prod.snd).sum

/-- No key comes twice, and there is something under each. -/
structure Summary (ts : List (κ × ℤ)) : Prop where
  keys : (ts.map Prod.fst).Nodup
  pos : ∀ t ∈ ts, 0 < t.2

@[simp] theorem tally_nil (k : κ) : tally ([] : List (κ × ℤ)) k = 0 := rfl

theorem tally_cons (t : κ × ℤ) (ts : List (κ × ℤ)) (k : κ) :
    tally (t :: ts) k = (if t.1 = k then t.2 else 0) + tally ts k := by
  unfold tally
  rw [List.filter_cons]
  by_cases h : t.1 = k
  · simp [h]
  · simp [h]

theorem tally_append (ts us : List (κ × ℤ)) (k : κ) :
    tally (ts ++ us) k = tally ts k + tally us k := by
  simp [tally]

/-- The tallies of groups add up to that of all. -/
theorem tally_flatten (groups : List (List (κ × ℤ))) (k : κ) :
    (groups.map fun g => tally g k).sum = tally groups.flatten k := by
  induction groups with
  | nil => rfl
  | cons g groups ih => rw [List.map_cons, List.sum_cons, ih, List.flatten_cons, tally_append]

/-- Nothing is under a key that does not come. -/
theorem tally_of_notMem {ts : List (κ × ℤ)} {k : κ} (h : k ∉ ts.map Prod.fst) : tally ts k = 0 := by
  have hnone : ts.filter (fun t => t.1 = k) = [] := by
    rw [List.filter_eq_nil_iff]
    intro t ht
    have hne : t.1 ≠ k := fun hc => h (List.mem_map.mpr ⟨t, ht, hc⟩)
    simpa using hne
  rw [tally, hnone]
  rfl

/-- Where no key comes twice, what is under a key is its amount. -/
theorem tally_of_mem {ts : List (κ × ℤ)} (hkeys : (ts.map Prod.fst).Nodup) {k : κ} {n : ℤ} (h : (k, n) ∈ ts) :
    tally ts k = n := by
  induction ts with
  | nil => exact absurd h List.not_mem_nil
  | cons t ts ih =>
      rw [List.map_cons, List.nodup_cons] at hkeys
      rw [tally_cons]
      rcases List.mem_cons.mp h with rfl | h
      · rw [if_pos rfl, tally_of_notMem hkeys.1, add_zero]
      · have hne : t.1 ≠ k := by
          intro hc
          exact hkeys.1 (hc ▸ List.mem_map.mpr ⟨(k, n), h, rfl⟩)
        rw [if_neg hne, zero_add]
        exact ih hkeys.2 h

/-- Such a list can be read off its keys and the tallies. -/
theorem mem_iff_tally {ts : List (κ × ℤ)} (hkeys : (ts.map Prod.fst).Nodup) {k : κ} {n : ℤ} :
    (k, n) ∈ ts ↔ k ∈ ts.map Prod.fst ∧ tally ts k = n := by
  constructor
  · intro h
    exact ⟨List.mem_map.mpr ⟨(k, n), h, rfl⟩, tally_of_mem hkeys h⟩
  · intro ⟨hk, htally⟩
    obtain ⟨⟨k', m⟩, ht, rfl⟩ := List.mem_map.mp hk
    rw [tally_of_mem hkeys ht] at htally
    rwa [← htally]

/-- In a summary, what is under a key is its amount. -/
theorem Summary.tally_of_mem {ts : List (κ × ℤ)} (hs : Summary ts) {k : κ} {n : ℤ} (h : (k, n) ∈ ts) :
    tally ts k = n := ChordDht.tally_of_mem hs.keys h

/-- The order does not matter. -/
theorem tally_perm {ts us : List (κ × ℤ)} (h : ts.Perm us) (k : κ) : tally ts k = tally us k := by
  unfold tally
  exact ((h.filter _).map Prod.snd).sum_eq

omit [DecidableEq κ] in
/-- The first entries of a summary are one. -/
theorem Summary.front {ts us : List (κ × ℤ)} (hs : Summary ts) (hfront : us <+: ts) : Summary us :=
  ⟨hs.keys.sublist (hfront.sublist.map _), fun t ht => hs.pos t (hfront.subset ht)⟩

/-- **A summary can be read off the tallies.** -/
theorem Summary.mem_iff {ts : List (κ × ℤ)} (hs : Summary ts) {k : κ} {n : ℤ} :
    (k, n) ∈ ts ↔ tally ts k = n ∧ 0 < n := by
  constructor
  · intro h
    exact ⟨hs.tally_of_mem h, hs.pos _ h⟩
  · intro ⟨htally, hpos⟩
    by_cases hmem : k ∈ ts.map Prod.fst
    · obtain ⟨⟨k', m⟩, ht, rfl⟩ := List.mem_map.mp hmem
      have hm := hs.tally_of_mem ht
      rw [htally] at hm
      rwa [hm]
    · rw [tally_of_notMem hmem] at htally
      omega

/-- A summary lists its tallies, where there is something. -/
theorem Summary.lists {ts : List (κ × ℤ)} (hs : Summary ts) :
    Lists ts fun k => if 0 < tally ts k then some (tally ts k) else none := by
  refine ⟨hs.keys, ?_⟩
  intro k n
  rw [hs.mem_iff, Option.ite_none_right_eq_some, Option.some.injEq]
  constructor
  · rintro ⟨rfl, hpos⟩
    exact ⟨hpos, rfl⟩
  · rintro ⟨hpos, rfl⟩
    exact ⟨rfl, hpos⟩

/-- Amounts that are positive add up to something positive. -/
theorem tally_pos_iff {ts : List (κ × ℤ)} (hpos : ∀ t ∈ ts, 0 < t.2) {k : κ} :
    0 < tally ts k ↔ k ∈ ts.map Prod.fst := by
  induction ts with
  | nil => simp
  | cons t ts ih =>
      have hrest := ih fun u hu => hpos u (List.mem_cons_of_mem _ hu)
      have ht := hpos t (List.mem_cons_self ..)
      have hnonneg : 0 ≤ tally ts k := by
        refine List.sum_nonneg ?_
        intro n hn
        obtain ⟨u, hu, rfl⟩ := List.mem_map.mp hn
        exact le_of_lt (hpos u (List.mem_cons_of_mem _ (List.mem_of_mem_filter hu)))
      rw [tally_cons, List.map_cons, List.mem_cons, ← hrest]
      by_cases h : t.1 = k
      · simp only [h, if_true, true_or, iff_true]
        omega
      · have h' : k ≠ t.1 := fun hc => h hc.symm
        simp [h, h']

/-- Each item of a list, once. -/
theorem tally_ones [BEq κ] [LawfulBEq κ] (ks : List κ) (k : κ) : tally (ks.map fun k => (k, (1 : ℤ))) k = ks.count k := by
  induction ks with
  | nil => rfl
  | cons k' ks ih =>
      rw [List.map_cons, tally_cons, ih, List.count_cons]
      by_cases h : k' = k
      · simp [h]
        omega
      · simp [h]

/-- Two summaries of the same tallies are the same up to their order. -/
theorem Summary.perm {ts us : List (κ × ℤ)} (ht : Summary ts) (hu : Summary us)
    (h : ∀ k, tally ts k = tally us k) : ts.Perm us := by
  refine (List.perm_ext_iff_of_nodup (List.Nodup.of_map Prod.fst ht.keys)
    (List.Nodup.of_map Prod.fst hu.keys)).mpr ?_
  intro ⟨k, n⟩
  rw [ht.mem_iff, hu.mem_iff, h k]

end ChordDht
