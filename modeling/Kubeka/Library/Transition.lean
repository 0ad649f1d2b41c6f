import Mathlib.Tactic

/-!
# Systems that take steps

A system in a state meets an event, which is either not possible there or
leads to another state and puts something out. A run is a list of events that
are possible one after the other. The rules here derive what holds of runs from
what holds of one step: invariants of the state and of what was put out, the
view of a part of the system, and bounds on the steps that change anything.
-/

namespace Kubeka.Transition

variable {σ ε ω : Type*}

/-- The run of the events from one state to another, with everything put out on the way. -/
inductive Run (step : σ → ε → Option (σ × List ω)) : σ → List ε → σ → List ω → Prop
  | nil (s : σ) : Run step s [] s []
  | cons {s s' s'' : σ} {e : ε} {es : List ε} {out outs : List ω} :
      step s e = some (s', out) → Run step s' es s'' outs → Run step s (e :: es) s'' (out ++ outs)

variable {step : σ → ε → Option (σ × List ω)} {s s' s'' : σ} {es es' : List ε} {out out' : List ω}

theorem Run.single {e : ε} (h : step s e = some (s', out)) : Run step s [e] s' out := by
  have hrun := Run.cons h (.nil s')
  rwa [List.append_nil] at hrun

theorem Run.append (h : Run step s es s' out) (h' : Run step s' es' s'' out') :
    Run step s (es ++ es') s'' (out ++ out') := by
  induction h with
  | nil s => exact h'
  | cons hstep hrest ih =>
    rw [List.append_assoc]
    exact .cons hstep (ih h')

/-- The run of the events, if they are possible. -/
def exec (step : σ → ε → Option (σ × List ω)) : σ → List ε → Option (σ × List ω)
  | s, [] => some (s, [])
  | s, e :: es =>
    match step s e with
    | none => none
    | some (s', out) => (exec step s' es).map fun r => (r.1, out ++ r.2)

theorem run_iff_exec : Run step s es s' out ↔ exec step s es = some (s', out) := by
  constructor
  · intro h
    induction h with
    | nil s => rfl
    | cons hstep hrest ih => simp [exec, hstep, ih]
  · intro h
    induction es generalizing s out with
    | nil =>
      obtain ⟨rfl, rfl⟩ := Prod.mk.inj (Option.some.inj h)
      exact .nil s
    | cons e es ih =>
      cases hstep : step s e with
      | none => simp [exec, hstep] at h
      | some r =>
        rw [exec, hstep] at h
        obtain ⟨⟨s'', outs⟩, hrest, heq⟩ := Option.map_eq_some_iff.mp h
        obtain ⟨rfl, rfl⟩ := Prod.mk.inj heq
        exact .cons hstep (ih hrest)

/-- A run that is checked by evaluation. -/
theorem exists_run (step : σ → ε → Option (σ × List ω)) (s : σ) (es : List ε)
    (P : σ × List ω → Bool) (h : (exec step s es).any P = true) :
    ∃ s' out, Run step s es s' out ∧ P (s', out) = true := by
  cases hexec : exec step s es with
  | none => simp [hexec] at h
  | some r =>
    rw [hexec] at h
    exact ⟨r.1, r.2, run_iff_exec.mpr hexec, h⟩

/-! ### Invariants -/

/-- What each step keeps of the state and of what was put out so far holds after a run. -/
theorem Run.invariant_append {R : σ → List ω → Prop} {before : List ω} (h : Run step s es s' out)
    (hstep : ∀ s e s' out before, R s before → step s e = some (s', out) → R s' (before ++ out))
    (hs : R s before) : R s' (before ++ out) := by
  induction h generalizing before with
  | nil s => rwa [List.append_nil]
  | cons hfirst hrest ih =>
    rw [← List.append_assoc]
    exact ih (hstep _ _ _ _ _ hs hfirst)

theorem Run.invariant {R : σ → List ω → Prop} (h : Run step s es s' out)
    (hstep : ∀ s e s' out before, R s before → step s e = some (s', out) → R s' (before ++ out))
    (hs : R s []) : R s' out :=
  h.invariant_append hstep hs

/-- What each step keeps of the state holds after a run. -/
theorem Run.preserves {P : σ → Prop} (h : Run step s es s' out)
    (hstep : ∀ s e s' out, P s → step s e = some (s', out) → P s') (hs : P s) : P s' := by
  induction h with
  | nil s => exact hs
  | cons hfirst hrest ih => exact ih (hstep _ _ _ _ hs hfirst)

/-- As `preserves`, for the runs whose events are of one kind. -/
theorem Run.preserves_of_forall {P : σ → Prop} {Q : ε → Prop} (h : Run step s es s' out)
    (hes : ∀ e ∈ es, Q e) (hstep : ∀ s e s' out, Q e → P s → step s e = some (s', out) → P s')
    (hs : P s) : P s' := by
  induction h with
  | nil s => exact hs
  | cons hfirst hrest ih =>
    obtain ⟨he, hrest'⟩ := List.forall_mem_cons.mp hes
    exact ih hrest' (hstep _ _ _ _ he hs hfirst)

/-! ### Steps that change something -/

open Classical in
/-- The number of steps of a run of the events that change the state. -/
noncomputable def changes (step : σ → ε → Option (σ × List ω)) : σ → List ε → ℕ
  | _, [] => 0
  | s, e :: es =>
    match step s e with
    | none => 0
    | some (s', _) => (if s' = s then 0 else 1) + changes step s' es

/-- Where every step either changes nothing or lowers a number, no run changes more often. -/
theorem changes_le_rank {P : σ → Prop} {rank : σ → ℕ}
    (hpreserve : ∀ s e s' out, P s → step s e = some (s', out) → P s')
    (hrank : ∀ s e s' out, P s → step s e = some (s', out) → s' = s ∨ rank s' < rank s)
    (hs : P s) (es : List ε) : changes step s es ≤ rank s := by
  induction es generalizing s with
  | nil => exact Nat.zero_le _
  | cons e es ih =>
    cases hstep : step s e with
    | none => simp [changes, hstep]
    | some r =>
      obtain ⟨s', out⟩ := r
      have hle := ih (hpreserve _ _ _ _ hs hstep)
      simp only [changes, hstep]
      rcases hrank _ _ _ _ hs hstep with heq | hlt
      · subst heq
        simpa using hle
      · split_ifs <;> omega

/-- Where every step lowers a number, a run is as long as it is lowered at most. -/
theorem Run.length_add_rank_le {P : σ → Prop} {rank : σ → ℕ} (h : Run step s es s' out)
    (hpreserve : ∀ s e s' out, P s → step s e = some (s', out) → P s')
    (hrank : ∀ s e s' out, P s → step s e = some (s', out) → rank s' < rank s) (hs : P s) :
    es.length + rank s' ≤ rank s := by
  induction h with
  | nil s => simp
  | cons hstep hrest ih =>
    have hle := ih (hpreserve _ _ _ _ hs hstep)
    have hlt := hrank _ _ _ _ hs hstep
    rw [List.length_cons]
    omega

/-- Where a step is possible that lowers a number until the end is reached, some run reaches it. -/
theorem exists_run_of_rank {P Final : σ → Prop} (rank : σ → ℕ)
    (hprogress : ∀ s, P s → ¬ Final s → ∃ e s' out, step s e = some (s', out) ∧ P s' ∧
      rank s' < rank s) (hs : P s) : ∃ es s' out, Run step s es s' out ∧ Final s' := by
  induction hn : rank s using Nat.strong_induction_on generalizing s with
  | _ n ih =>
    by_cases hfinal : Final s
    · exact ⟨[], s, [], .nil s, hfinal⟩
    · obtain ⟨e, s', out, hstep, hs', hlt⟩ := hprogress s hs hfinal
      obtain ⟨es, s'', outs, hrun, hend⟩ := ih (rank s') (hn ▸ hlt) hs' rfl
      exact ⟨e :: es, s'', out ++ outs, .cons hstep hrun, hend⟩

end Kubeka.Transition
