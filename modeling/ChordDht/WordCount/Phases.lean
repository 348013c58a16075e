/-
The two phases with workers that go by the legacy branch.

The map phase collects the entries of the maps of all chunks, one behind the other:
`mapPhase_chunks`.  The reduce phase cuts what was collected into payloads of whole
tokens, and what the workers reply has the same tallies: `reducePhase_tokens`.  Neither
depends on which worker is asked.
-/
import ChordDht.WordCount.Cuts

namespace ChordDht.WordCount

open Outcome

/-- The text of a reply that has room in the distributor's buffer. -/
theorem request_text {worker : Bytes → Outcome Reply} {msg text : Bytes}
    (h : worker msg = .returns (.ofText text)) (hzero : (0 : UInt8) ∉ text)
    (hlen : text.length + 1 < maxMsgLen) : request worker msg = .returns text := by
  have hroom : ¬ maxMsgLen ≤ (Reply.ofText text).bytes.length := by
    show ¬ maxMsgLen ≤ (text ++ [0]).length
    rw [List.length_append, List.length_singleton]
    omega
  rw [request, h, returns_bind, receive, if_neg hroom, returns_bind]
  show Outcome.returns (cstr (text ++ [0] ++ [0])) = _
  rw [List.append_assoc, List.singleton_append, cstr_append_zero hzero]

/-! ### The map phase -/

/-- The tokens that the map phase collects. -/
def collected (cs : List Bytes) : List (Bytes × ℤ) := cs.flatMap fun chunk => (counted chunk).entries

theorem collected_cons (c : Bytes) (cs : List Bytes) :
    collected (c :: cs) = (counted c).entries ++ collected cs := List.flatMap_cons

theorem request_chunk {chunk : Bytes} (h : Chunk chunk) (hzero : (0 : UInt8) ∉ chunk) :
    request handleLegacy (mapFrame chunk) = .returns ((counted chunk).entries.flatMap mapEntry) := by
  have hholds := holds_counted h.short
  have hsize := encodedSize_eq hholds
  have hlt := encodedSize_lt h
  have hmax : maxMsgLen = 1500 := rfl
  exact request_text (handleLegacy_chunk h hzero)
    (zero_notMem_map (hholds.tokens (tokens_ones h.short))) (by omega)

/-- **The map phase** collects the entries of all chunks. -/
theorem mapPhase_chunks (workerCount : Nat) : ∀ {cs : List Bytes} (workerIdx : Nat),
    (∀ c ∈ cs, Chunk c ∧ (0 : UInt8) ∉ c) →
      mapPhase (fun _ => handleLegacy) workerCount workerIdx cs
        = .returns ((collected cs).flatMap mapEntry) := by
  intro cs
  induction cs with
  | nil => intro workerIdx _; rfl
  | cons c cs ih =>
      intro workerIdx hcs
      obtain ⟨hc, hzero⟩ := hcs c (List.mem_cons_self ..)
      rw [mapPhase, request_chunk hc hzero, returns_bind,
        ih _ fun d hd => hcs d (List.mem_cons_of_mem _ hd), returns_bind, collected_cons,
        List.flatMap_append]
      rfl

theorem collected_tokens {cs : List Bytes} (hcs : ∀ c ∈ cs, Chunk c) : ∀ t ∈ collected cs, Token t := by
  intro t ht
  obtain ⟨c, hc, hmem⟩ := List.mem_flatMap.mp ht
  have hshort := (hcs c hc).short
  exact (holds_counted hshort).tokens (tokens_ones hshort) t hmem

/-- The collected tokens count the words of all chunks. -/
theorem collected_tally {cs : List Bytes} (hcs : ∀ c ∈ cs, Chunk c) (k : Bytes) :
    tally (collected cs) k = (cs.flatMap words).count k := by
  induction cs with
  | nil => rfl
  | cons c cs ih =>
      have hc := (holds_counted (hcs c (List.mem_cons_self ..)).short).tally k
      have hcs' := ih fun d hd => hcs d (List.mem_cons_of_mem _ hd)
      have hones := tally_ones (words c) k
      rw [collected_cons, tally_append, List.flatMap_cons, List.count_append, hc, hcs', Nat.cast_add, ones,
        hones]

/-! ### The size of one token -/

theorem count_weight (ws : List Bytes) (w : Bytes) :
    (ws.count w : ℤ) * (w.length + 1) ≤ weight (ones ws) := by
  induction ws with
  | nil => exact Int.le_of_eq (Int.zero_mul _)
  | cons v ws ih =>
      have hcons : weight (ones (v :: ws)) = v.length + 1 + weight (ones ws) := weight_cons ..
      rw [hcons]
      by_cases hv : v = w
      · rw [hv, List.count_cons_self, Nat.cast_add, Nat.cast_one, Int.add_mul]
        omega
      · rw [List.count_cons_of_ne (fun hc => hv hc)]
        omega

/-- **Each entry has room in a payload**: the letters and the ones of a word that came often
are fewer than its letters in the chunk. -/
theorem entry_room {ws : List Bytes} (hts : ∀ t ∈ ones ws, Token t) (hweight : weight (ones ws) ≤ chunkMaxSize + 1)
    {hm : HashMap} (hholds : Holds hm (ones ws)) : ∀ t ∈ hm.entries, (mapEntry t).length ≤ payloadMax := by
  intro ⟨w, n⟩ ht
  have htoken := hholds.tokens hts _ ht
  have hcount : n = ws.count w := by
    rw [← hholds.summary.tally_of_mem ht, hholds.tally]
    exact tally_ones ws w
  have hones := count_weight ws w
  have hshort := htoken.short
  have hletter := List.length_pos_iff.mpr htoken.nonempty
  have hpos := htoken.pos
  have hlen := mapEntry_length (Int.le_of_lt hpos)
  have hmax : chunkMaxSize = 1497 := rfl
  have hpayload : payloadMax = 1493 := rfl
  have hword : wordMax = 255 := rfl
  simp only at hshort hletter hpos hlen
  rw [← hcount] at hones
  by_cases hfew : n ≤ 5
  · omega
  · have hproduct : 0 ≤ (n - 1) * ((w.length : ℤ) - 1) := Int.mul_nonneg (by omega) (by omega)
    have hexpand : (n - 1) * ((w.length : ℤ) - 1) = n * (w.length + 1) - 2 * n - w.length + 1 := by ring
    omega

/-! ### One reduce request -/

/-- In decimal a token is no longer than in ones. -/
theorem reduceEntry_length_le {t : Bytes × ℤ} (h : Token t) :
    (reduceEntry t).length ≤ (mapEntry t).length := by
  have hpos := h.pos
  have hdecimal := @decimal_length_le_self t.2.toNat (by omega)
  rw [reduceEntry, mapEntry, decimalInt, if_neg (by omega), List.length_append, List.length_append,
    List.length_replicate]
  omega

theorem reduce_length_le {ts : List (Bytes × ℤ)} (hts : ∀ t ∈ ts, Token t) :
    (ts.flatMap reduceEntry).length ≤ (ts.flatMap mapEntry).length := by
  rw [List.length_flatMap, List.length_flatMap]
  exact List.sum_le_sum fun t ht => reduceEntry_length_le (hts t ht)

theorem zero_notMem_reduce {ts : List (Bytes × ℤ)} (hts : ∀ t ∈ ts, Token t) :
    (0 : UInt8) ∉ ts.flatMap reduceEntry := by
  intro hmem
  obtain ⟨t, ht, hzero⟩ := List.mem_flatMap.mp hmem
  rcases List.mem_append.mp hzero with hzero | hzero
  · exact absurd ((hts t ht).letters 0 hzero) (by decide)
  · exact absurd (reduceEntry_digits (hts t ht) 0 hzero) (by decide)

/-- **A reduce request** with some tokens is answered with the entries of their map. -/
theorem request_tokens {ts : List (Bytes × ℤ)} (hts : ∀ t ∈ ts, Token t)
    (hroom : (ts.flatMap mapEntry).length ≤ payloadMax) :
    request handleLegacy (frame "red" (ts.flatMap mapEntry))
      = .returns ((putAll (hmCreate 1024) ts).entries.flatMap reduceEntry) := by
  have hholds := holds_tokens hts
  have htokens := hholds.tokens hts
  have hlen := map_length fun t ht => Int.le_of_lt (hts t ht).pos
  have hlen' := map_length fun t ht => Int.le_of_lt (htokens t ht).pos
  have hweight := hholds.weight
  have hreduce := reduce_length_le htokens
  have hmax : maxMsgLen = 1500 := rfl
  have hpayload : payloadMax = 1493 := rfl
  have hzero := zero_notMem_map hts
  have hread : wcFromMapFormat (sent (ts.flatMap mapEntry) ++ [0, 0]) = putAll (hmCreate 1024) ts := by
    rw [← fromMapFormat_tokens hts, sent_eq_self (by omega), wcFromMapFormat, cstr_append_zero hzero,
      wcFromMapFormat, cstr_eq_self hzero]
  have hdigits : ∀ t ∈ (putAll (hmCreate 1024) ts).entries, (decimalInt t.2).length < 32 := by
    intro t ht
    have hentry := entry_le_weight hholds.summary.pos ht
    exact decimalInt_short (htokens t ht).pos (by omega)
  have hone := fun t ht => reduceEntry_pos (htokens t ht)
  have hreply : reduceReply (sent (ts.flatMap mapEntry) ++ [0, 0]) maxMsgLen
      = (putAll (hmCreate 1024) ts).entries.flatMap reduceEntry := by
    rw [reduceReply, hread, toReduceFormat_fitPrefix hone hdigits (Or.inr (Nat.le_refl _)) (entry_sizes (by omega)),
      (fitPrefix_eq_self _ 0 (by omega)).mpr (by omega)]
  have hworker := handleLegacy_red hzero
  rw [hreply] at hworker
  exact request_text hworker (zero_notMem_reduce htokens) (by omega)

/-! ### The reduce phase -/

/-- The requests for some payloads, from a worker on. -/
def reduceAll (workers : Nat → Bytes → Outcome Reply) (workerCount : Nat) :
    Nat → List Bytes → Outcome Bytes
  | _, [] => .returns []
  | workerIdx, payload :: more => do
      let reply ← request (workers workerIdx) (frame "red" payload)
      let results ← reduceAll workers workerCount ((workerIdx + 1) % workerCount) more
      return reply ++ results

/-- **The reduce phase** sends the payloads, one after the other. -/
theorem reducePhase_payloads (workers : Nat → Bytes → Outcome Reply) (workerCount : Nat) :
    ∀ {turns : Nat} {data : Bytes} {ps : List Bytes} (workerIdx : Nat), payloads turns data = .returns ps →
      reducePhase workers workerCount turns workerIdx data = reduceAll workers workerCount workerIdx ps := by
  intro turns
  induction turns with
  | zero => intro data ps _ h; cases h
  | succ turns ih =>
      intro data ps workerIdx h
      rw [payloads] at h
      rw [reducePhase]
      by_cases hdata : data = []
      · rw [if_pos hdata, returns.injEq] at h
        rw [if_pos hdata, ← h]
        rfl
      · rw [if_neg hdata, bind_eq_returns] at h
        obtain ⟨rest, hrest, hps⟩ := h
        rw [pure_eq, returns.injEq] at hps
        rw [if_neg hdata, ← hps, ih _ hrest]
        rfl

/-- What is replied to groups of tokens has their tallies. -/
theorem reduceAll_groups {groups : List (List (Bytes × ℤ))} (hts : ∀ t ∈ groups.flatten, Token t)
    (hroom : ∀ g ∈ groups, (g.flatMap mapEntry).length ≤ payloadMax) :
    ∃ rs : List (Bytes × ℤ), (∀ r ∈ rs, Token r) ∧ (∀ k, tally rs k = tally groups.flatten k) ∧
      ∀ workerCount workerIdx, reduceAll (fun _ => handleLegacy) workerCount workerIdx
        (groups.map fun g => g.flatMap mapEntry) = .returns (rs.flatMap reduceEntry) := by
  induction groups with
  | nil => exact ⟨[], fun r hr => absurd hr List.not_mem_nil, fun k => rfl, fun _ _ => rfl⟩
  | cons g groups ih =>
      rw [List.flatten_cons] at hts
      have hgroup : ∀ t ∈ g, Token t := fun t ht => hts t (List.mem_append_left _ ht)
      have hholds := holds_tokens hgroup
      obtain ⟨rs, hrs, htally, hphase⟩ := ih (fun t ht => hts t (List.mem_append_right _ ht))
        fun g' hg' => hroom g' (List.mem_cons_of_mem _ hg')
      refine ⟨(putAll (hmCreate 1024) g).entries ++ rs, ?_, ?_, ?_⟩
      · intro r hr
        rcases List.mem_append.mp hr with hr | hr
        · exact hholds.tokens hgroup r hr
        · exact hrs r hr
      · intro k
        rw [tally_append, List.flatten_cons, tally_append, hholds.tally, htally]
      · intro workerCount workerIdx
        rw [List.map_cons, reduceAll, request_tokens hgroup (hroom g (List.mem_cons_self ..)), returns_bind, hphase,
          returns_bind, List.flatMap_append]
        rfl

/-- **The reduce phase** returns tokens with the tallies of those that were collected. -/
theorem reducePhase_tokens {fuel : Nat} {ts : List (Bytes × ℤ)} (hts : ∀ t ∈ ts, Token t)
    (hroom : ∀ t ∈ ts, (mapEntry t).length ≤ payloadMax) (hfuel : ts.length < fuel) :
    ∃ rs : List (Bytes × ℤ), (∀ r ∈ rs, Token r) ∧ (∀ k, tally rs k = tally ts k) ∧
      ∀ workerCount workerIdx, reducePhase (fun _ => handleLegacy) workerCount fuel workerIdx
        (ts.flatMap mapEntry) = .returns (rs.flatMap reduceEntry) := by
  obtain ⟨groups, rfl, hgroups, hpayloads⟩ := payloads_tokens hts hroom
  obtain ⟨rs, hrs, htally, hphase⟩ := reduceAll_groups hts fun g hg => (hgroups g hg).2
  refine ⟨rs, hrs, htally, ?_⟩
  intro workerCount workerIdx
  rw [reducePhase_payloads _ _ _ (hpayloads fuel hfuel), hphase]

end ChordDht.WordCount
