/-
Runs of a deterministic system.

A system is a partial step function: in a state, an event either leads to one next
state or is not possible.  A run is a list of events.  Invariants go through runs
by one induction, done here, so that a protocol proof only ever looks at one step.

`Along` says that every event of a run meets a condition in the state it happens
in; it is how a result speaks of the runs whose steps all behave.
-/
import Mathlib

namespace ChordDht.Trace

variable {σ ε : Type} (step : σ → ε → Option σ)

/-- The state after a list of events, if every one of them is possible. -/
def run : σ → List ε → Option σ
  | s, [] => some s
  | s, e :: es => (step s e).bind fun s' => run s' es

/-- Every event of the run meets `P` in the state it happens in. -/
def Along (P : σ → ε → Prop) : σ → List ε → Prop
  | _, [] => True
  | s, e :: es => P s e ∧ ∀ s', step s e = some s' → Along P s' es

/-- `Q` holds in the first state of the run and in every state it comes to. -/
def Throughout (Q : σ → Prop) : σ → List ε → Prop
  | s, [] => Q s
  | s, e :: es => Q s ∧ ∀ s', step s e = some s' → Throughout Q s' es

/-- A condition that can be decided in each state can be decided along a run. -/
instance decidableAlong {P : σ → ε → Prop} [∀ s e, Decidable (P s e)] :
    ∀ (s : σ) (es : List ε), Decidable (Along step P s es)
  | _, [] => .isTrue trivial
  | s, e :: es =>
      match h : step s e with
      | none => decidable_of_iff (P s e) (by simp [Along, h])
      | some s' =>
          have : Decidable (Along step P s' es) := decidableAlong s' es
          decidable_of_iff (P s e ∧ Along step P s' es) (by simp [Along, h])

variable {step}

theorem run_cons (s : σ) (e : ε) (es : List ε) :
    run step s (e :: es) = (step s e).bind fun s' => run step s' es := rfl

/-- What holds throughout a run holds where it starts. -/
theorem throughout_head {Q : σ → Prop} {s : σ} {es : List ε} (h : Throughout step Q s es) : Q s := by
  cases es with
  | nil => exact h
  | cons e es => exact h.1

/-- There is at most one next state. -/
theorem forall_next {s s' : σ} {e : ε} (h : step s e = some s') {R : σ → Prop} :
    (∀ s'', step s e = some s'' → R s'') ↔ R s' := by
  constructor
  · intro hall
    exact hall s' h
  · intro hR s'' hs''
    rw [h, Option.some.injEq] at hs''
    rwa [← hs'']

/-- A run that starts with `e` takes that step and goes on from there. -/
theorem run_cons_eq_some {s t : σ} {e : ε} {es : List ε} :
    run step s (e :: es) = some t ↔ ∃ s', step s e = some s' ∧ run step s' es = some t := by
  simp [run_cons, Option.bind_eq_some_iff]

/-- **Run rule.** If a step comes to a good state exactly from a good one and when it meets `P`,
so does a run, when all its steps do. -/
theorem run_iff_along {P : σ → ε → Prop} {Good Inv : σ → Prop}
    (hkeep : ∀ s e s', Inv s → step s e = some s' → Inv s')
    (hstep : ∀ s e s', Inv s → step s e = some s' → (Good s' ↔ Good s ∧ P s e)) :
    ∀ (es : List ε) {s t : σ}, Inv s → run step s es = some t →
      (Good t ↔ Good s ∧ Along step P s es) := by
  intro es
  induction es with
  | nil =>
      intro s t _ hrun
      rw [← Option.some.inj hrun]
      exact ⟨fun h => ⟨h, trivial⟩, fun h => h.1⟩
  | cons e es ih =>
      intro s t hs hrun
      obtain ⟨s', hstep', hrun'⟩ := run_cons_eq_some.mp hrun
      rw [ih (hkeep s e s' hs hstep') hrun', hstep s e s' hs hstep', Along, forall_next hstep', and_assoc]

/-- **Exact run rule.** If admitted steps keep the invariant, the invariant is good, and only
an admitted step comes to a good state, a run is good throughout exactly when every one of
its steps is admitted. -/
theorem throughout_iff_along {P : σ → ε → Prop} {Q Inv : σ → Prop} (hgood : ∀ s, Inv s → Q s)
    (hkeep : ∀ s e s', Inv s → P s e → step s e = some s' → Inv s')
    (hneed : ∀ s e s', Inv s → step s e = some s' → Q s' → P s e) :
    ∀ (es : List ε) {s t : σ}, Inv s → run step s es = some t →
      (Throughout step Q s es ↔ Along step P s es) := by
  intro es
  induction es with
  | nil =>
      intro s t hs _
      exact ⟨fun _ => trivial, fun _ => hgood s hs⟩
  | cons e es ih =>
      intro s t hs hrun
      obtain ⟨s', hstep', hrun'⟩ := run_cons_eq_some.mp hrun
      rw [Throughout, Along, forall_next hstep', forall_next hstep']
      constructor
      · rintro ⟨-, hrest⟩
        have hQ : Q s' := throughout_head hrest
        have hP : P s e := hneed s e s' hs hstep' hQ
        exact ⟨hP, (ih (hkeep s e s' hs hP hstep') hrun').mp hrest⟩
      · rintro ⟨hP, hrest⟩
        exact ⟨hgood s hs, (ih (hkeep s e s' hs hP hstep') hrun').mpr hrest⟩

/-- **Along a run that cannot stop.**  If, in good states, a step is as it should be exactly for
the admitted events, and these keep the state good, then a run is all as it should be exactly
when all its events are admitted. -/
theorem along_iff_forall {P : σ → ε → Prop} {Good : σ → Prop} {Admitted : ε → Prop} {next : σ → ε → σ}
    (hnext : ∀ s e, step s e = some (next s e)) (hkeep : ∀ s e, Good s → Admitted e → Good (next s e))
    (hstep : ∀ s e, Good s → (P s e ↔ Admitted e)) :
    ∀ (es : List ε) {s : σ}, Good s → (Along step P s es ↔ ∀ e ∈ es, Admitted e) := by
  intro es
  induction es with
  | nil => intro s _; exact iff_of_true trivial fun e he => absurd he List.not_mem_nil
  | cons e es ih =>
      intro s hs
      rw [Along, forall_next (hnext s e), hstep s e hs, List.forall_mem_cons]
      exact and_congr_right fun hadmitted => ih (hkeep s e hs hadmitted)

/-- **A run that never gets stuck** is one whose events are all possible. -/
theorem run_exists_iff {P : σ → ε → Prop} (hstep : ∀ s e, (∃ s', step s e = some s') ↔ P s e) :
    ∀ (es : List ε) {s : σ}, (∃ t, run step s es = some t) ↔ Along step P s es := by
  intro es
  induction es with
  | nil => intro s; exact iff_of_true ⟨s, rfl⟩ trivial
  | cons e es ih =>
      intro s
      rw [Along, ← hstep]
      constructor
      · rintro ⟨t, hrun⟩
        obtain ⟨s', hs', hrest⟩ := run_cons_eq_some.mp hrun
        exact ⟨⟨s', hs'⟩, (forall_next hs').mpr (ih.mp ⟨t, hrest⟩)⟩
      · rintro ⟨⟨s', hs'⟩, hrest⟩
        obtain ⟨t, ht⟩ := ih.mpr (hrest s' hs')
        exact ⟨t, run_cons_eq_some.mpr ⟨s', hs', ht⟩⟩

/-- What each step keeps a run keeps. -/
theorem run_keep {Inv : σ → Prop} (hkeep : ∀ s e s', Inv s → step s e = some s' → Inv s') :
    ∀ (es : List ε) {s t : σ}, Inv s → run step s es = some t → Inv t := by
  intro es
  induction es with
  | nil =>
      intro s t hs hrun
      rwa [← Option.some.inj hrun]
  | cons e es ih =>
      intro s t hs hrun
      obtain ⟨s', hs', hrest⟩ := run_cons_eq_some.mp hrun
      exact ih (hkeep s e s' hs hs') hrest

/-- What each step keeps holds throughout a run. -/
theorem throughout_keep {Inv : σ → Prop} (hkeep : ∀ s e s', Inv s → step s e = some s' → Inv s') :
    ∀ (es : List ε) {s : σ}, Inv s → Throughout step Inv s es := by
  intro es
  induction es with
  | nil =>
      intro s hs
      exact hs
  | cons e es ih =>
      intro s hs
      exact ⟨hs, fun s' hs' => ih (hkeep s e s' hs hs')⟩

/-- **Budget rule.**  If each step pays its cost out of what is left, a whole run costs no
more than there was at its start. -/
theorem run_budget (Left : σ → Nat → Prop) (cost : ε → Nat)
    (hstep : ∀ s e s' a, Left s a → step s e = some s' → ∃ a', Left s' a' ∧ a' + cost e ≤ a) :
    ∀ (es : List ε) {s t : σ} {a : Nat}, Left s a → run step s es = some t →
      ∃ a', Left t a' ∧ a' + (es.map cost).sum ≤ a := by
  intro es
  induction es with
  | nil =>
      intro s t a hs hrun
      rw [← Option.some.inj hrun]
      exact ⟨a, hs, Nat.le_refl _⟩
  | cons e es ih =>
      intro s t a hs hrun
      obtain ⟨s', hstep', hrest⟩ := run_cons_eq_some.mp hrun
      obtain ⟨a', hs', hpaid⟩ := hstep s e s' a hs hstep'
      obtain ⟨b, ht, hpaid'⟩ := ih hs' hrest
      refine ⟨b, ht, ?_⟩
      rw [List.map_cons, List.sum_cons]
      omega

/-- Along one run and another behind it. -/
theorem along_append {P : σ → ε → Prop} (es fs : List ε) : ∀ {s : σ},
    Along step P s (es ++ fs) ↔ Along step P s es ∧ ∀ t, run step s es = some t → Along step P t fs := by
  induction es with
  | nil =>
      intro s
      constructor
      · intro h
        refine ⟨trivial, ?_⟩
        intro t ht
        rwa [← Option.some.inj ht]
      · rintro ⟨-, h⟩
        exact h s rfl
  | cons e es ih =>
      intro s
      rw [List.cons_append, Along, Along, and_assoc]
      refine and_congr_right fun _ => ?_
      cases hstep : step s e with
      | none => simp [run_cons, hstep]
      | some s' => simp [run_cons, hstep, ih]

/-- **Along a run two conditions are the same** if they are in every good state for what comes, and
what meets the second leads to a good state. -/
theorem along_congr_of_mem {P Q : σ → ε → Prop} {Good : σ → Prop}
    (hkeep : ∀ s e s', Good s → Q s e → step s e = some s' → Good s') :
    ∀ (es : List ε) {s : σ}, (∀ s, ∀ e ∈ es, Good s → (P s e ↔ Q s e)) → Good s →
      (Along step P s es ↔ Along step Q s es) := by
  intro es
  induction es with
  | nil => intro s _ _; exact Iff.rfl
  | cons e es ih =>
      intro s hiff hs
      rw [Along, Along, hiff s e (List.mem_cons_self ..) hs]
      refine and_congr_right fun hQ => ?_
      exact forall_congr' fun s' => forall_congr' fun hstep =>
        ih (fun t e' he' => hiff t e' (List.mem_cons_of_mem _ he')) (hkeep s e s' hs hQ hstep)

theorem along_congr {P Q : σ → ε → Prop} {Good : σ → Prop} (hiff : ∀ s e, Good s → (P s e ↔ Q s e))
    (hkeep : ∀ s e s', Good s → Q s e → step s e = some s' → Good s') (es : List ε) {s : σ} (hs : Good s) :
    Along step P s es ↔ Along step Q s es :=
  along_congr_of_mem hkeep es (fun t e _ => hiff t e) hs

/-- A run goes on from where its first part comes to. -/
theorem run_append {s t : σ} {es : List ε} (h : run step s es = some t) (fs : List ε) :
    run step s (es ++ fs) = run step t fs := by
  induction es generalizing s with
  | nil =>
      rw [Option.some.inj h]
      rfl
  | cons e es ih =>
      obtain ⟨s', hstep, hrest⟩ := run_cons_eq_some.mp h
      rw [List.cons_append, run_cons, hstep, Option.bind_some, ih hrest]

/-- **Completion rule.**  If runs have a bounded length, and each can go on until it is final, there
is one that is. -/
theorem run_completes {Final : σ → Prop} {s : σ} {bound : Nat}
    (hbound : ∀ es t, run step s es = some t → es.length ≤ bound)
    (hgo : ∀ es t, run step s es = some t → ¬ Final t → ∃ e t', step t e = some t') :
    ∃ es t, run step s es = some t ∧ Final t := by
  by_contra hnever
  have hlong : ∀ n, ∃ es t, run step s es = some t ∧ es.length = n := by
    intro n
    induction n with
    | zero => exact ⟨[], s, rfl, rfl⟩
    | succ n ih =>
        obtain ⟨es, t, hrun, hlen⟩ := ih
        obtain ⟨e, t', hstep⟩ := hgo es t hrun fun hfinal => hnever ⟨es, t, hrun, hfinal⟩
        refine ⟨es ++ [e], t', ?_, by rw [List.length_append, hlen, List.length_singleton]⟩
        rw [run_append hrun, run_cons, hstep, Option.bind_some, run]
  obtain ⟨es, t, hrun, hlen⟩ := hlong (bound + 1)
  have hle := hbound es t hrun
  omega

/-- **Simulation rule.**  `R` says what events of another system a state stands for.  If each step
stands for some further events, so does a run; and where each step of a run meets `P`, all the
events meet `P'`. -/
theorem run_simulates {δ : Type} {R : σ → List δ → Prop} {P : ε → Prop} {P' : δ → Prop}
    (hstep : ∀ s e s' ds, R s ds → step s e = some s' →
      ∃ more, R s' (ds ++ more) ∧ (P e → ∀ d ∈ more, P' d)) :
    ∀ (es : List ε) {s t : σ} {ds : List δ}, R s ds → run step s es = some t →
      ∃ more, R t (ds ++ more) ∧ ((∀ e ∈ es, P e) → ∀ d ∈ more, P' d) := by
  intro es
  induction es with
  | nil =>
      intro s t ds hs hrun
      rw [← Option.some.inj hrun]
      exact ⟨[], by rwa [List.append_nil], fun _ d hd => absurd hd List.not_mem_nil⟩
  | cons e es ih =>
      intro s t ds hs hrun
      obtain ⟨s', hs', hrest⟩ := run_cons_eq_some.mp hrun
      obtain ⟨first, hfirst, hmeets⟩ := hstep s e s' ds hs hs'
      obtain ⟨others, hothers, hmeets'⟩ := ih hfirst hrest
      refine ⟨first ++ others, by rwa [← List.append_assoc], ?_⟩
      intro hall d hd
      rcases List.mem_append.mp hd with hd | hd
      · exact hmeets (hall e List.mem_cons_self) d hd
      · exact hmeets' (fun e' he' => hall e' (List.mem_cons_of_mem _ he')) d hd

end ChordDht.Trace
