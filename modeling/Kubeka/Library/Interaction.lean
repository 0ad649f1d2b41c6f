import Mathlib.Tactic

/-!
# Programs that make calls

A program makes a call and goes on with the answer until it is done. Where
calls may fork, a call has one answer for the process that makes it and, when
the child returns from the call, one more for the child, which has the same
rest of the program before it.
-/

namespace Kubeka.Interaction

inductive Prog (ι ρ α : Type*) where
  | done (a : α)
  | call (i : ι) (rest : ρ → Prog ι ρ α)

/-- The answers to a call; there is one for the child when the child returns. -/
structure Answers (ρ : Type*) where
  parent : ρ
  child : Option ρ

/-- A process, by the number of calls made before the fork in each generation. -/
abbrev Pid := List ℕ

namespace Prog

variable {ι ρ α β : Type*}

def bind : Prog ι ρ α → (α → Prog ι ρ β) → Prog ι ρ β
  | .done a, f => f a
  | .call i rest, f => .call i fun r => (rest r).bind f

/-- The result and the calls of one process, in order. -/
def run (answer : ι → ρ) : Prog ι ρ α → α × List ι
  | .done a => (a, [])
  | .call i rest =>
    let r := (rest (answer i)).run answer
    (r.1, i :: r.2)

/-- The calls of the process `pid` after its first `n`, and of all processes forked from there. -/
def calls (answer : Pid → ι → Answers ρ) : Pid → ℕ → Prog ι ρ α → List (Pid × ι)
  | _, _, .done _ => []
  | pid, n, .call i rest =>
    (pid, i) :: (calls answer pid (n + 1) (rest (answer pid i).parent) ++
      match (answer pid i).child with
      | none => []
      | some r => calls answer (pid ++ [n]) 0 (rest r))

@[simp] theorem run_done (answer : ι → ρ) (a : α) :
    (done a : Prog ι ρ α).run answer = (a, []) := rfl

@[simp] theorem run_call (answer : ι → ρ) (i : ι) (rest : ρ → Prog ι ρ α) :
    (call i rest).run answer =
      (((rest (answer i)).run answer).1, i :: ((rest (answer i)).run answer).2) := rfl

@[simp] theorem run_bind (answer : ι → ρ) (m : Prog ι ρ α) (f : α → Prog ι ρ β) :
    (m.bind f).run answer = (((f (m.run answer).1).run answer).1,
      (m.run answer).2 ++ ((f (m.run answer).1).run answer).2) := by
  induction m with
  | done a => simp [bind]
  | call i rest ih => simp [bind, ih]

/-- A process makes the calls that it would make alone. -/
theorem mem_calls_of_run {answer : Pid → ι → Answers ρ} {pid : Pid} {n : ℕ} {m : Prog ι ρ α} {i : ι}
    (h : i ∈ (m.run fun i => (answer pid i).parent).2) : (pid, i) ∈ m.calls answer pid n := by
  induction m generalizing n with
  | done a => simp at h
  | call j rest ih =>
    rw [run_call, List.mem_cons] at h
    rw [calls, List.mem_cons, List.mem_append]
    rcases h with rfl | h
    · exact .inl rfl
    · exact .inr (.inl (ih _ h))

/-- As long as no child returns there is one process. -/
theorem calls_of_childless {answer : Pid → ι → Answers ρ} {pid : Pid} (n : ℕ) {m : Prog ι ρ α}
    (h : ∀ i ∈ (m.run fun i => (answer pid i).parent).2, (answer pid i).child = none) :
    m.calls answer pid n = (m.run fun i => (answer pid i).parent).2.map (pid, ·) := by
  induction m generalizing n with
  | done a => rfl
  | call j rest ih =>
    obtain ⟨hj, hrest⟩ := List.forall_mem_cons.mp h
    rw [calls, hj, ih _ (n + 1) hrest, List.append_nil]
    rfl

/-! ### Answers that depend on a state -/

section

variable {σ : Type*} (answer : σ → ι → ρ × σ)

/-- The result, and the state that is left. -/
def play : Prog ι ρ α → σ → α × σ
  | .done a, s => (a, s)
  | .call i rest, s => play (rest (answer s i).1) (answer s i).2

/-- The calls, each with the state it meets. -/
def record : Prog ι ρ α → σ → List (σ × ι)
  | .done _, _ => []
  | .call i rest, s => (s, i) :: record (rest (answer s i).1) (answer s i).2

/-- Every call that the program may make has the property. -/
def Asks (P : ι → Prop) : Prog ι ρ α → Prop
  | .done _ => True
  | .call i rest => P i ∧ ∀ r, Asks P (rest r)

/-- The calls with their answers. -/
def answers (m : Prog ι ρ α) (s : σ) : List (ι × ρ) :=
  (m.record answer s).map fun e => (e.2, (answer e.1 e.2).1)

@[simp] theorem play_done (a : α) (s : σ) : (done a : Prog ι ρ α).play answer s = (a, s) := rfl

@[simp] theorem play_call (i : ι) (rest : ρ → Prog ι ρ α) (s : σ) :
    (call i rest).play answer s = (rest (answer s i).1).play answer (answer s i).2 := rfl

@[simp] theorem play_bind (m : Prog ι ρ α) (f : α → Prog ι ρ β) (s : σ) :
    (m.bind f).play answer s = (f (m.play answer s).1).play answer (m.play answer s).2 := by
  induction m generalizing s with
  | done a => rfl
  | call i rest ih => exact ih _ _

theorem record_bind (m : Prog ι ρ α) (f : α → Prog ι ρ β) (s : σ) : (m.bind f).record answer s =
    m.record answer s ++ (f (m.play answer s).1).record answer (m.play answer s).2 := by
  induction m generalizing s with
  | done a => rfl
  | call i rest ih => exact congrArg (List.cons (s, i)) (ih _ _)

variable {answer}

theorem Asks.bind {P : ι → Prop} {m : Prog ι ρ α} (h : m.Asks P) {f : α → Prog ι ρ β}
    (hf : ∀ a, (f a).Asks P) : (m.bind f).Asks P := by
  induction m with
  | done a => exact hf a
  | call i rest ih => exact ⟨h.1, fun r => ih r (h.2 r)⟩

/-- What every answered call preserves holds at the end. -/
theorem play_preserves {P : σ → Prop} (hstep : ∀ s i, P s → P (answer s i).2) (m : Prog ι ρ α)
    {s : σ} (h : P s) : P (m.play answer s).2 := by
  induction m generalizing s with
  | done a => exact h
  | call i rest ih => exact ih _ (hstep s i h)

/-- Two states that are related as long as the calls to the second are good ones: the program gets
the same answers from both. -/
theorem play_related {P : ι → Prop} {R : σ → σ → Prop} {Good : σ → ι → Prop}
    (hstep : ∀ s t i, P i → R s t → Good t i →
      (answer s i).1 = (answer t i).1 ∧ R (answer s i).2 (answer t i).2)
    {m : Prog ι ρ α} (hasks : m.Asks P) {s t : σ} (h : R s t)
    (hgood : ∀ e ∈ m.record answer t, Good e.1 e.2) :
    (m.play answer s).1 = (m.play answer t).1 ∧ R (m.play answer s).2 (m.play answer t).2 ∧
      m.answers answer s = m.answers answer t := by
  induction m generalizing s t with
  | done a => exact ⟨rfl, h, rfl⟩
  | call i rest ih =>
    obtain ⟨hi, hrest⟩ := List.forall_mem_cons.mp hgood
    obtain ⟨hanswer, hrel⟩ := hstep s t i hasks.1 h hi
    rw [← hanswer] at hrest
    obtain ⟨hresult, hleft, hanswers⟩ := ih _ (hasks.2 _) hrel hrest
    rw [play_call, play_call, ← hanswer]
    refine ⟨hresult, hleft, ?_⟩
    rw [answers, record, List.map_cons, ← answers, hanswers, answers, answers, record, hanswer]
    rfl

end

end Prog

end Kubeka.Interaction
