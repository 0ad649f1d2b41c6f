import Kubeka.Run.Schedule

/-!
# The COUNTER of a periodic node

A node with a COUNTER is run that many times. The thread counts down before
each run and writes the number that is left into the variable, where the
commands of the node read it. One value of the counter stands for no COUNTER;
a node never gets there by counting.
-/

namespace Kubeka

variable {period : Kbperiod}

/-- The runs made in a number of iterations, in order. -/
def runsOf (its : List Iteration) : List (KbTree × Ran) := its.filterMap Iteration.run

/-- At most `n` runs are made, each sees how many are left after it, and the loop ends before the
last of them only when it is told to end or has met too many errors. -/
structure CountsRuns (period : Kbperiod) (n : ℕ) (its : List Iteration) : Prop where
  atMost : (runsOf its).length ≤ n
  left : ∀ k run, (runsOf its)[k]? = some run →
    kbnodeGetvalueFirst run.1.symtab kbnodeKeyCounter = Nat.toDigits 10 (n - (k + 1))
  ends : ∀ front it rest, its = front ++ it :: rest →
    (periodicStep period it.before it.tick).1.done = true → (runsOf (front ++ [it])).length < n →
    it.tick.endflag ≠ 0 ∨ 10 < (periodicStep period it.before it.tick).1.nerrors

/-- `n` runs are left, and the node has a COUNTER to show them in. -/
structure HasLeft (n : ℕ) (s : Periodic) : Prop where
  counter : s.counter = n
  lt : n < noCounter
  bound : ∃ v vs, kbsymtabGet s.root.symtab kbnodeKeyCounter = some (v :: vs)

@[simp] theorem KbTree.withSymtab_symtab (t : KbTree) (st : Symtab) :
    (t.withSymtab st).symtab = st := by
  cases t
  rfl

@[simp] theorem countDown_done (s : Periodic) : (countDown s).done = s.done := by
  unfold countDown
  split_ifs <;> rfl

/-! ### One iteration -/

/-- Counting down leaves one run less, and the variable shows it. -/
theorem HasLeft.countDown {n : ℕ} {s : Periodic} (h : HasLeft n s) :
    HasLeft (n - 1) (countDown s) ∧
      kbnodeGetvalueFirst (Kubeka.countDown s).root.symtab kbnodeKeyCounter =
        Nat.toDigits 10 (n - 1) := by
  obtain ⟨v, vs, hget⟩ := h.bound
  have hcounter : s.counter ≠ noCounter := by
    have hlt := h.lt
    rw [h.counter]
    omega
  have hset := kbnodeSetSingle_get hget (Nat.succ_pos vs.length) (Nat.toDigits 10 (n - 1))
    kbnodeKeyCounter
  rw [if_pos rfl, List.set_cons_zero] at hset
  rw [Kubeka.countDown, if_neg hcounter, h.counter]
  refine ⟨⟨rfl, lt_of_le_of_lt (Nat.sub_le n 1) h.lt, Nat.toDigits 10 (n - 1), vs, ?_⟩, ?_⟩
  · rw [KbTree.withSymtab_symtab]
    exact hset
  · rw [KbTree.withSymtab_symtab, kbnodeGetvalueFirst]
    exact kbsymtabGetString_of_cons hset

/-- What an iteration does to the runs that are left: none is made and the loop ends only when it is
told to or none is left, or one is made and the loop ends only after too many errors. -/
theorem periodicStep_hasLeft {n : ℕ} {s : Periodic} (h : HasLeft n s) (tick : Tick) :
    (periodicStep period s tick).2 = none ∧ HasLeft n (periodicStep period s tick).1 ∧
        ((periodicStep period s tick).1.done = true → s.done = false →
          tick.endflag ≠ 0 ∨ n = 0) ∨
      n ≠ 0 ∧ HasLeft (n - 1) (periodicStep period s tick).1 ∧
        (∃ run, (periodicStep period s tick).2 = some run ∧
          kbnodeGetvalueFirst run.1.symtab kbnodeKeyCounter = Nat.toDigits 10 (n - 1)) ∧
        ((periodicStep period s tick).1.done = true → s.done = false →
          10 < (periodicStep period s tick).1.nerrors) := by
  unfold periodicStep
  by_cases hend : tick.endflag = 0
  · rw [if_neg (not_not.mpr hend)]
    by_cases hzero : s.counter = 0
    · rw [if_pos hzero]
      exact .inl ⟨rfl, ⟨h.counter, h.lt, h.bound⟩, fun _ _ => .inr (h.counter.symm.trans hzero)⟩
    · rw [if_neg hzero]
      by_cases hrem : kbperiodRemaining s.expTime tick.now = 0
      · rw [if_neg (not_not.mpr hrem)]
        have hn : n ≠ 0 := fun hn => hzero (h.counter.trans hn)
        have hexp : HasLeft n { s with expTime := kbperiodReset period tick.reset } :=
          ⟨h.counter, h.lt, h.bound⟩
        obtain ⟨hleft, htext⟩ := hexp.countDown
        refine .inr ⟨hn, ?_⟩
        dsimp only
        split_ifs with hret
        · exact ⟨⟨hleft.counter, hleft.lt, hleft.bound⟩, ⟨_, rfl, htext⟩,
            fun hdone _ => of_decide_eq_true hdone⟩
        · refine ⟨⟨hleft.counter, hleft.lt, hleft.bound⟩, ⟨_, rfl, htext⟩, fun hdone hs => ?_⟩
          have hkept : s.done = true := (countDown_done
            { s with expTime := kbperiodReset period tick.reset }).symm.trans hdone
          simp [hs] at hkept
      · rw [if_pos hrem]
        exact .inl ⟨rfl, h, fun hdone hs => absurd (hdone.symm.trans hs) (by simp)⟩
  · rw [if_pos hend]
    exact .inl ⟨rfl, ⟨h.counter, h.lt, h.bound⟩, fun _ _ => .inl hend⟩

/-! ### Whole runs -/

theorem CountsRuns.nil (n : ℕ) : CountsRuns period n [] where
  atMost := Nat.zero_le n
  left k run h := by simp [runsOf] at h
  ends front it rest h := by simp at h

/-- An iteration without a run in front of others. -/
theorem CountsRuns.cons_idle {n : ℕ} {it : Iteration} {its : List Iteration}
    (h : CountsRuns period n its) (hrun : it.run = none)
    (hends : (periodicStep period it.before it.tick).1.done = true →
      it.tick.endflag ≠ 0 ∨ n = 0) : CountsRuns period n (it :: its) := by
  have hruns : ∀ its, runsOf (it :: its) = runsOf its := fun its => List.filterMap_cons_none hrun
  refine ⟨by rw [hruns]; exact h.atMost, by rw [hruns]; exact h.left, ?_⟩
  intro front it' rest heq hdone hlt
  cases front with
  | nil =>
    obtain ⟨rfl, -⟩ := List.cons.inj heq
    refine .inl ((hends hdone).resolve_right ?_)
    rintro rfl
    exact absurd hlt (Nat.not_lt_zero _)
  | cons first front =>
    obtain ⟨rfl, htail⟩ := List.cons.inj heq
    rw [List.cons_append, hruns] at hlt
    exact h.ends front it' rest htail hdone hlt

/-- An iteration with a run in front of others. -/
theorem CountsRuns.cons_run {n : ℕ} {it : Iteration} {its : List Iteration} {run : KbTree × Ran}
    (h : CountsRuns period (n - 1) its) (hn : n ≠ 0) (hrun : it.run = some run)
    (htext : kbnodeGetvalueFirst run.1.symtab kbnodeKeyCounter = Nat.toDigits 10 (n - 1))
    (hends : (periodicStep period it.before it.tick).1.done = true →
      10 < (periodicStep period it.before it.tick).1.nerrors) : CountsRuns period n (it :: its) := by
  have hruns : ∀ its, runsOf (it :: its) = run :: runsOf its := fun its =>
    List.filterMap_cons_some hrun
  have hmost := h.atMost
  refine ⟨?_, fun k run' hk => ?_, ?_⟩
  · rw [hruns, List.length_cons]
    omega
  · rw [hruns] at hk
    cases k with
    | zero =>
      obtain rfl := Option.some.inj hk
      exact htext
    | succ k =>
      rw [h.left k run' hk]
      congr 1
      omega
  · intro front it' rest heq hdone hlt
    cases front with
    | nil =>
      obtain ⟨rfl, -⟩ := List.cons.inj heq
      exact .inr (hends hdone)
    | cons first front =>
      obtain ⟨rfl, htail⟩ := List.cons.inj heq
      rw [List.cons_append, hruns, List.length_cons] at hlt
      exact h.ends front it' rest htail hdone (by omega)

theorem periodicLoop_countsRuns {n : ℕ} {s : Periodic} (h : HasLeft n s) (ticks : List Tick) :
    CountsRuns period n (periodicLoop period s ticks) := by
  induction ticks generalizing s n with
  | nil => exact .nil n
  | cons tick ticks ih =>
    rw [periodicLoop]
    split_ifs with hdone
    · exact .nil n
    · have hgoes : s.done = false := by simpa using hdone
      rcases periodicStep_hasLeft h tick with
        ⟨hnone, hleft, hends⟩ | ⟨hn, hleft, ⟨run, hrun, htext⟩, hends⟩
      · exact (ih hleft).cons_idle hnone fun hd => hends hd hgoes
      · exact (ih hleft).cons_run hn hrun htext fun hd => hends hd hgoes

/-- A variable with a text has a first value. -/
theorem bound_of_getvalueFirst {st : Symtab} {key : CStr} (h : kbnodeGetvalueFirst st key ≠ []) :
    ∃ v vs, kbsymtabGet st key = some (v :: vs) := by
  rw [kbnodeGetvalueFirst, kbsymtabGetString] at h
  split at h
  · next v vs hget => exact ⟨v, vs, hget⟩
  · exact absurd rfl h

/-- The thread starts with as many runs left as COUNTER says. -/
theorem thPeriodicStart_hasLeft {nul : Bool} {root : KbTree} {now n : ℕ} {s : Periodic}
    (h : thPeriodicStart nul root now = some (period, s))
    (hgiven : kbnodeGetvalueFirst root.symtab kbnodeKeyCounter ≠ [])
    (hcounter : sscanfUnsigned 64 (kbnodeGetvalueFirst root.symtab kbnodeKeyCounter) = some n)
    (hlt : n < noCounter) : HasLeft n s := by
  unfold thPeriodicStart at h
  split at h
  · simp at h
  · dsimp only at h
    rw [if_neg hgiven, hcounter] at h
    split_ifs at h with hperiod
    obtain ⟨kbp, -, heq⟩ := Option.map_eq_some_iff.mp h
    obtain ⟨-, rfl⟩ := Prod.mk.inj heq
    exact ⟨rfl, hlt, bound_of_getvalueFirst hgiven⟩

/-- COUNTER bounds the runs of a periodic node, whatever the clock shows, the commands return and
the end flag is. -/
theorem thPeriodic_countsRuns {nul : Bool} {root : KbTree} {now n : ℕ} {s : Periodic}
    (hstart : thPeriodicStart nul root now = some (period, s))
    (hgiven : kbnodeGetvalueFirst root.symtab kbnodeKeyCounter ≠ [])
    (hcounter : sscanfUnsigned 64 (kbnodeGetvalueFirst root.symtab kbnodeKeyCounter) = some n)
    (hlt : n < 2 ^ 64 - 1) (ticks : List Tick) :
    CountsRuns period n (thPeriodic nul root now ticks) := by
  simp only [thPeriodic, hstart]
  exact periodicLoop_countsRuns (thPeriodicStart_hasLeft hstart hgiven hcounter hlt) ticks

/-- A node to be run two times. -/
def twice : KbTree :=
  .ofVars "p".toList [(kbnodeKeyPeriod, ["1sec".toList]), (kbnodeKeyCounter, ["2".toList])] [] []

theorem twice_countsRuns : ∃ period s, thPeriodicStart true twice 0 = some (period, s) ∧
    CountsRuns period 2 (thPeriodic true twice 0 [lookAt 1, lookAt 2, lookAt 3, lookAt 4]) := by
  obtain ⟨⟨period, s⟩, hs⟩ : ∃ r, thPeriodicStart true twice 0 = some r := ⟨_, rfl⟩
  exact ⟨period, s, hs, thPeriodic_countsRuns hs (by decide) (by decide +kernel) (by decide) _⟩

end Kubeka
