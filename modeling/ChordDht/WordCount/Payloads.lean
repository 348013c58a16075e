/-
The reduce payloads of any file.

Whatever is in the file, a worker replies to each of its chunks with tokens, and each of
them has room in a payload; so what the map phase collects is cut between tokens only, and
the payloads count together what all of it counts.
-/
import ChordDht.WordCount.Phases

namespace ChordDht.WordCount

open Outcome

/-! ### The reply to any chunk -/

/-- A message carries a text up to its zero byte. -/
theorem frame_cstr (type : String) (text : Bytes) : frame type (cstr text) = frame type text := by
  rw [frame, frame, cstr_cstr]

/-- A text that came in a message is replied to with tokens. -/
theorem mapReply_tokens {text : Bytes} (hzero : (0 : UInt8) ∉ text) (hshort : text.length ≤ 1496) (rest : Bytes)
    (n : Nat) : ∃ ts : List (Bytes × ℤ), (∀ t ∈ ts, Token t ∧ (mapEntry t).length ≤ payloadMax) ∧
      mapReply (text ++ 0 :: rest) n = ts.flatMap mapEntry ∧ (ts.flatMap mapEntry).length ≤ text.length + 1 := by
  have hholds := (holds_create 1024).tokenize (text ++ 0 :: rest)
  rw [List.nil_append, cstr_append_zero hzero] at hholds
  generalize hhm : wcTokenizeAndCount (hmCreate 1024) (text ++ 0 :: rest) = hm at hholds
  have htokens := hholds.tokens (tokens_cut text)
  have hcut := weight_cut text
  have hweight := hholds.weight
  have hall := map_length fun t ht => Int.le_of_lt (htokens t ht).pos
  have hroom : ∀ t ∈ hm.entries, (mapEntry t).length ≤ payloadMax := by
    have hmax : chunkMaxSize = 1497 := rfl
    exact entry_room (tokens_cut text) (by omega) hholds
  obtain ⟨more, hmore⟩ : fitPrefix mapEntry n 0 hm.entries <+: hm.entries := fitPrefix_prefix hm.entries 0
  refine ⟨fitPrefix mapEntry n 0 hm.entries, ?_, ?_, ?_⟩
  · intro t ht
    have hmem : t ∈ hm.entries := by
      rw [← hmore]
      exact List.mem_append_left _ ht
    exact ⟨htokens t hmem, hroom t hmem⟩
  · rw [mapReply, hhm, toMapFormat_fitPrefix hholds.summary.pos (Or.inr (Nat.le_refl _)) (entry_sizes (by omega))]
  · have hle := congrArg (fun ts => (ts.flatMap mapEntry).length) hmore
    simp only [List.flatMap_append, List.length_append] at hle
    omega

/-- **A worker replies with tokens** to any chunk. -/
theorem request_map (chunk : Bytes) :
    ∃ ts : List (Bytes × ℤ), (∀ t ∈ ts, Token t ∧ (mapEntry t).length ≤ payloadMax) ∧
      request handle (mapFrame chunk) = .returns (ts.flatMap mapEntry) := by
  have hzero := zero_notMem_cstr chunk
  have hsent := sent_length (cstr chunk)
  have hframe : mapFrame chunk = frame "map" (cstr chunk) := (frame_cstr "map" chunk).symm
  have hmax : maxMsgLen = 1500 := rfl
  rw [hframe]
  cases hnew : announced (cstr chunk) with
  | none =>
      obtain ⟨ts, hts, hreply, hle⟩ := mapReply_tokens (zero_notMem_sent hzero) hsent [0] maxMsgLen
      have hhandle := handle_map_plain hzero hnew
      rw [handleLegacy_map hzero, hreply] at hhandle
      exact ⟨ts, hts, request_text hhandle (zero_notMem_map fun t ht => (hts t ht).1) (by omega)⟩
  | some n =>
      have hzero' : (0 : UInt8) ∉ (sent (cstr chunk)).drop 3 :=
        fun hmem => zero_notMem_sent hzero (List.mem_of_mem_drop hmem)
      have hsent' : ((sent (cstr chunk)).drop 3).length ≤ 1496 := by
        rw [List.length_drop]
        omega
      obtain ⟨ts, hts, hreply, hle⟩ := mapReply_tokens hzero' hsent' [0] (if n = 0 then maxMsgLen else n)
      have hhandle := handle_map_announced hzero hnew
      rw [hreply] at hhandle
      exact ⟨ts, hts, request_text hhandle (zero_notMem_map fun t ht => (hts t ht).1) (by omega)⟩

/-- **The map phase** collects tokens. -/
theorem mapPhase_tokens (cs : List Bytes) :
    ∃ ts : List (Bytes × ℤ), (∀ t ∈ ts, Token t ∧ (mapEntry t).length ≤ payloadMax) ∧
      ∀ workerCount workerIdx, mapPhase (fun _ => handle) workerCount workerIdx cs
        = .returns (ts.flatMap mapEntry) := by
  induction cs with
  | nil => exact ⟨[], fun t ht => absurd ht List.not_mem_nil, fun _ _ => rfl⟩
  | cons c cs ih =>
      obtain ⟨us, hus, hphase⟩ := ih
      obtain ⟨ts, hts, hreply⟩ := request_map c
      refine ⟨ts ++ us, ?_, ?_⟩
      · intro t ht
        rcases List.mem_append.mp ht with ht | ht
        · exact hts t ht
        · exact hus t ht
      · intro workerCount workerIdx
        rw [mapPhase, hreply, returns_bind, hphase, returns_bind, List.flatMap_append]
        rfl

/-! ### The cuts -/

/-- Some tokens end with a one. -/
theorem map_getLast? {ts : List (Bytes × ℤ)} (hts : ∀ t ∈ ts, Token t) (hne : ts ≠ []) :
    (ts.flatMap mapEntry).getLast? = some 49 := by
  rcases List.eq_nil_or_concat ts with hnil | ⟨front, t, rfl⟩
  · exact absurd hnil hne
  · rw [List.concat_eq_append] at hts ⊢
    have hpos := (hts t (List.mem_append_right _ (List.mem_singleton.mpr rfl))).pos
    obtain ⟨n, hn⟩ : ∃ n, t.2.toNat = n + 1 := ⟨t.2.toNat - 1, by omega⟩
    rw [List.flatMap_append, List.flatMap_singleton, mapEntry, hn, List.replicate_succ', ← List.append_assoc,
      ← List.append_assoc, List.getLast?_concat]

/-- They begin with a letter. -/
theorem map_head? {ts : List (Bytes × ℤ)} (hts : ∀ t ∈ ts, Token t) :
    ∀ c ∈ (ts.flatMap mapEntry).head?, isAlpha c = true := by
  intro c hc
  cases ts with
  | nil => cases hc
  | cons t ts =>
      have ht := hts t (List.mem_cons_self ..)
      obtain ⟨d, word, hword⟩ := List.exists_cons_of_ne_nil ht.nonempty
      rw [List.flatMap_cons, mapEntry, hword, List.cons_append, List.cons_append, List.head?_cons,
        Option.mem_some] at hc
      rw [← hc]
      exact ht.letters d (by rw [hword]; exact List.mem_cons_self ..)

/-- **Between two groups** there is a one in front and a letter behind. -/
theorem cut_between {g : List (Bytes × ℤ)} {gs : List (List (Bytes × ℤ))} (hts : ∀ t ∈ (g :: gs).flatten, Token t)
    (hgroups : ∀ g' ∈ g :: gs, g' ≠ []) (hgs : gs ≠ []) :
    (g.flatMap mapEntry).getLast? = some 49 ∧
      ∃ c ∈ (gs.flatten.flatMap mapEntry).head?, isAlpha c = true := by
  rw [List.flatten_cons] at hts
  have hrest : ∀ t ∈ gs.flatten, Token t := fun t ht => hts t (List.mem_append_right _ ht)
  refine ⟨map_getLast? (fun t ht => hts t (List.mem_append_left _ ht)) (hgroups g (List.mem_cons_self ..)), ?_⟩
  have hne : gs.flatten ≠ [] := by
    obtain ⟨u, us, rfl⟩ := List.exists_cons_of_ne_nil hgs
    have hu := hgroups u (List.mem_cons_of_mem _ (List.mem_cons_self ..))
    rw [List.flatten_cons]
    exact List.append_ne_nil_of_left_ne_nil hu _
  obtain ⟨c, text, htext⟩ := List.exists_cons_of_ne_nil (map_ne_nil hrest hne)
  have hhead : (gs.flatten.flatMap mapEntry).head? = some c := by
    rw [htext]
    rfl
  exact ⟨c, hhead, map_head? hrest c hhead⟩

theorem flatten_groups (gs : List (List (Bytes × ℤ))) :
    (gs.map fun g => g.flatMap mapEntry).flatten = gs.flatten.flatMap mapEntry := by
  induction gs with
  | nil => rfl
  | cons g gs ih => rw [List.map_cons, List.flatten_cons, ih, List.flatten_cons, List.flatMap_append]

/-- What is decoded from some tokens, for one word. -/
theorem decode_groups {groups : List (List (Bytes × ℤ))} (hts : ∀ t ∈ groups.flatten, Token t) (word : Bytes) :
    ((groups.map fun g => g.flatMap mapEntry).map fun p => (hmGet (wcFromMapFormat p) word).getD 0).sum
      = (hmGet (wcFromMapFormat (groups.flatten.flatMap mapEntry)) word).getD 0 := by
  rw [decode_tally hts, ← tally_flatten, List.map_map]
  refine congrArg List.sum (List.map_congr_left ?_)
  intro g hg
  exact decode_tally (fun t ht => hts t (List.mem_flatten.mpr ⟨g, hg, ht⟩)) word

/-- **The reduce loop never cuts a token.**  For any file the map phase collects tokens; the loop
ends, and its payloads are groups of tokens, not empty and none of them too long, which are
together what was collected.  Each cut is behind a one and in front of a letter, a place for it
is found whenever more is left than a payload holds, and the payloads count each word as often
as what was collected does. -/
theorem payloads_whole (file : Bytes) (workerCount : Nat) :
    ∃ (mapResults : Bytes) (ts : List (Bytes × ℤ)) (groups : List (List (Bytes × ℤ))) (ps : List Bytes),
      mapPhase (fun _ => handle) workerCount 0 (chunks file) = .returns mapResults ∧
      mapResults = ts.flatMap mapEntry ∧ (∀ t ∈ ts, Token t) ∧
      (∀ turns, mapResults.length < turns → payloads turns mapResults = .returns ps ∧
        ∀ workers workerIdx, reducePhase workers workerCount turns workerIdx mapResults
          = reduceAll workers workerCount workerIdx ps) ∧
      ps = groups.map (fun g => g.flatMap mapEntry) ∧ groups.flatten = ts ∧
      (∀ p ∈ ps, p ≠ [] ∧ p.length ≤ payloadMax) ∧ ps.flatten = mapResults ∧
      (∀ front p back, ps = front ++ p :: back → back ≠ [] →
        p.getLast? = some 49 ∧ ∃ c ∈ back.flatten.head?, isAlpha c = true) ∧
      (∀ front back, ps = front ++ back → payloadMax < back.flatten.length →
        ∃ i, findSafeSplitFrom back.flatten payloadMax = some i) ∧
      ∀ word, (ps.map fun p => (hmGet (wcFromMapFormat p) word).getD 0).sum
        = (hmGet (wcFromMapFormat mapResults) word).getD 0 := by
  obtain ⟨ts, hts, hphase⟩ := mapPhase_tokens (chunks file)
  have htokens : ∀ t ∈ ts, Token t := fun t ht => (hts t ht).1
  obtain ⟨groups, rfl, hgroups, hpayloads⟩ := payloads_tokens htokens fun t ht => (hts t ht).2
  refine ⟨_, groups.flatten, groups, _, hphase workerCount 0, rfl, htokens, ?_, rfl, rfl, ?_, flatten_groups groups, ?_, ?_,
    decode_groups htokens⟩
  · intro turns hturns
    have hreturns := hpayloads turns (Nat.lt_of_le_of_lt (length_le_flatMap fun t ht => mapEntry_pos (htokens t ht)) hturns)
    exact ⟨hreturns, fun workers workerIdx => reducePhase_payloads workers workerCount workerIdx hreturns⟩
  · intro p hp
    obtain ⟨g, hg, rfl⟩ := List.mem_map.mp hp
    obtain ⟨hne, hle⟩ := hgroups g hg
    exact ⟨map_ne_nil (fun t ht => htokens t (List.mem_flatten.mpr ⟨g, hg, ht⟩)) hne, hle⟩
  · intro front p back hps hback
    obtain ⟨gfront, gmore, rfl, -, hmore⟩ := List.map_eq_append_iff.mp hps
    obtain ⟨g, gback, rfl, rfl, rfl⟩ := List.map_eq_cons_iff.mp hmore
    rw [List.flatten_append] at htokens
    rw [flatten_groups]
    refine cut_between (fun t ht => htokens t (List.mem_append_right _ ht))
      (fun g' hg' => (hgroups g' (List.mem_append_right _ hg')).1) ?_
    rintro rfl
    exact hback rfl
  · intro front back hps hlong
    obtain ⟨gfront, gback, rfl, -, rfl⟩ := List.map_eq_append_iff.mp hps
    have hsub : ∀ t ∈ gback.flatten, t ∈ (gfront ++ gback).flatten := by
      intro t ht
      rw [List.flatten_append]
      exact List.mem_append_right _ ht
    rw [flatten_groups] at hlong ⊢
    exact findSafeSplitFrom_tokens (fun t ht => htokens t (hsub t ht)) (fun t ht => (hts t (hsub t ht)).2) hlong

end ChordDht.WordCount
