import Kubeka.Model.Periodic

/-!
# The schedule of a periodic node

`kbperiod_remaining` returns 0 up to the expiry and what has passed since then
afterwards. So `th_periodic` starts its node at every look at the clock until
the expiry is over, and never again once a reading was later.
-/

namespace Kubeka

variable {period : Kbperiod}

/-- The iteration looks at the clock: it is not told to end, and the COUNTER is not exhausted. -/
def Iteration.Looks (it : Iteration) : Prop := it.tick.endflag = 0 ∧ it.before.counter ≠ 0

/-- The period is kept: the node is started exactly when the expiry is reached, be it late, and two
starts in succession are a period apart. -/
structure Scheduled (seconds : ℕ) (its : List Iteration) : Prop where
  starts : ∀ it ∈ its, it.Looks → (it.run.isSome ↔ it.before.expTime ≤ it.tick.now)
  apart : List.IsChain (fun a b => a.tick.reset + seconds ≤ b.tick.now)
    (its.filter fun it => it.run.isSome)

/-! ### One iteration -/

theorem kbperiodRemaining_eq_zero_iff {expTime now : ℕ} :
    kbperiodRemaining expTime now = 0 ↔ now ≤ expTime := by
  unfold kbperiodRemaining
  split_ifs <;> omega

@[simp] theorem countDown_expTime (s : Periodic) : (countDown s).expTime = s.expTime := by
  unfold countDown
  split_ifs <;> rfl

/-- What an iteration can do: leave the loop, go on to the next one, or start the node and set a new
expiry. -/
theorem periodicStep_cases (period : Kbperiod) (s : Periodic) (tick : Tick) :
    (¬ (tick.endflag = 0 ∧ s.counter ≠ 0) ∧ (periodicStep period s tick).2 = none ∧
        (periodicStep period s tick).1.done = true) ∨
      (tick.endflag = 0 ∧ s.counter ≠ 0) ∧ s.expTime < tick.now ∧
        periodicStep period s tick = (s, none) ∨
      (tick.endflag = 0 ∧ s.counter ≠ 0) ∧ tick.now ≤ s.expTime ∧
        (periodicStep period s tick).2.isSome ∧
        (periodicStep period s tick).1.expTime = tick.reset + period.seconds := by
  by_cases hend : tick.endflag = 0
  · by_cases hcounter : s.counter = 0
    · have hstep : periodicStep period s tick = ({ s with done := true }, none) := by
        rw [periodicStep, if_neg (not_not.mpr hend), if_pos hcounter]
      exact .inl ⟨fun h => h.2 hcounter, by rw [hstep], by rw [hstep]⟩
    · by_cases hnow : tick.now ≤ s.expTime
      · have hrem := kbperiodRemaining_eq_zero_iff.mpr hnow
        refine .inr (.inr ⟨⟨hend, hcounter⟩, hnow, ?_⟩)
        rw [periodicStep, if_neg (not_not.mpr hend), if_neg hcounter, if_neg (not_not.mpr hrem)]
        dsimp only
        split
        · exact ⟨rfl, countDown_expTime _⟩
        · exact ⟨rfl, countDown_expTime _⟩
      · have hrem := mt kbperiodRemaining_eq_zero_iff.mp hnow
        refine .inr (.inl ⟨⟨hend, hcounter⟩, by omega, ?_⟩)
        rw [periodicStep, if_neg (not_not.mpr hend), if_neg hcounter, if_pos hrem]
  · have hstep : periodicStep period s tick = ({ s with done := true }, none) := by
      rw [periodicStep, if_pos hend]
    exact .inl ⟨fun h => hend h.1, by rw [hstep], by rw [hstep]⟩

/-- The node is started as long as the expiry is not over. -/
theorem periodicLoop_started_iff (s : Periodic) (ticks : List Tick) :
    ∀ it ∈ periodicLoop period s ticks, it.Looks →
      (it.run.isSome ↔ it.tick.now ≤ it.before.expTime) := by
  induction ticks generalizing s with
  | nil => simp [periodicLoop]
  | cons tick ticks ih =>
    simp only [periodicLoop]
    split_ifs
    · simp
    · refine List.forall_mem_cons.mpr ⟨fun hlooks => ?_, ih _⟩
      rcases periodicStep_cases period s tick with ⟨hno, -⟩ | ⟨-, hlate, hstep⟩ | ⟨-, hnow, hrun, -⟩
      · exact absurd hlooks hno
      · simp only [hstep, Option.isSome_none, Bool.false_eq_true, false_iff]
        omega
      · simp [hrun, hnow]

/-! ### Whole runs -/

/-- Where every reading is the expiry, the next start reads the one that the last start has set. -/
theorem periodicLoop_next_start {s : Periodic} {ticks : List Tick} {it : Iteration}
    (hread : ∀ it ∈ periodicLoop period s ticks, it.Looks → it.tick.now = it.before.expTime)
    (h : ((periodicLoop period s ticks).filter fun it => it.run.isSome).head? = some it) :
    it.tick.now = s.expTime := by
  induction ticks generalizing s with
  | nil => simp [periodicLoop] at h
  | cons tick ticks ih =>
    simp only [periodicLoop] at h hread
    split_ifs at h hread with hdone
    · simp at h
    · obtain ⟨hfirst, hrest⟩ := List.forall_mem_cons.mp hread
      rcases periodicStep_cases period s tick with
        ⟨-, hnone, hleft⟩ | ⟨hlooks, hlate, -⟩ | ⟨hlooks, -, hrun, -⟩
      · have hend : periodicLoop period (periodicStep period s tick).1 ticks = [] := by
          cases ticks with
          | nil => rfl
          | cons t ts => rw [periodicLoop, if_pos hleft]
        simp [hnone, hend] at h
      · have heq : tick.now = s.expTime := hfirst hlooks
        omega
      · rw [List.filter_cons, if_pos hrun, List.head?_cons] at h
        obtain rfl := Option.some.inj h
        exact hfirst hlooks

theorem periodicLoop_apart {s : Periodic} {ticks : List Tick}
    (hread : ∀ it ∈ periodicLoop period s ticks, it.Looks → it.tick.now = it.before.expTime) :
    List.IsChain (fun a b => a.tick.reset + period.seconds ≤ b.tick.now)
      ((periodicLoop period s ticks).filter fun it => it.run.isSome) := by
  induction ticks generalizing s with
  | nil => exact List.isChain_nil
  | cons tick ticks ih =>
    simp only [periodicLoop] at hread ⊢
    split_ifs at hread ⊢
    · exact List.isChain_nil
    · have hrest := (List.forall_mem_cons.mp hread).2
      cases hrun : (periodicStep period s tick).2 with
      | none =>
        rw [List.filter_cons_of_neg (by simp)]
        exact ih hrest
      | some r =>
        rw [List.filter_cons_of_pos rfl]
        refine List.isChain_cons.mpr ⟨fun it hit => ?_, ih hrest⟩
        have hexp := periodicLoop_next_start hrest hit
        rcases periodicStep_cases period s tick with ⟨-, hnone, -⟩ | ⟨-, -, hstep⟩ | ⟨-, -, -, hset⟩
        · simp [hnone] at hrun
        · simp [hstep] at hrun
        · dsimp only
          omega

/-- A periodic node keeps its schedule exactly in those runs in which the clock, at every look at
it, shows the very second of the expiry. -/
theorem thPeriodic_scheduled_iff {nul : Bool} {root : KbTree} {now : ℕ} {s : Periodic}
    (h : thPeriodicStart nul root now = some (period, s)) (ticks : List Tick) :
    Scheduled period.seconds (thPeriodic nul root now ticks) ↔
      ∀ it ∈ thPeriodic nul root now ticks, it.Looks → it.tick.now = it.before.expTime := by
  simp only [thPeriodic, h]
  constructor
  · intro hs it hit hlooks
    have hcode := periodicLoop_started_iff s ticks it hit hlooks
    have hclaim := hs.starts it hit hlooks
    rw [hcode] at hclaim
    rcases le_total it.tick.now it.before.expTime with hle | hle
    · exact le_antisymm hle (hclaim.mp hle)
    · exact le_antisymm (hclaim.mpr hle) hle
  · intro hread
    refine ⟨fun it hit hlooks => ?_, periodicLoop_apart hread⟩
    rw [periodicLoop_started_iff s ticks it hit hlooks, hread it hit hlooks]

/-- A node to be run every ten seconds. -/
def tenSeconds : KbTree := .ofVars "p".toList [(kbnodeKeyPeriod, ["10sec".toList])] [] []

/-- One look at the clock. -/
def lookAt (now : ℕ) : Tick := { endflag := 0, now := now, reset := now, shell := fun _ _ _ => 0 }

/-- It is started after one second already. -/
theorem tenSeconds_not_scheduled : ∃ period s, thPeriodicStart true tenSeconds 0 = some (period, s) ∧
    ¬ Scheduled period.seconds (thPeriodic true tenSeconds 0 [lookAt 1]) := by
  obtain ⟨⟨period, s⟩, hs⟩ : ∃ r, thPeriodicStart true tenSeconds 0 = some r := ⟨_, rfl⟩
  have hearly : (thPeriodic true tenSeconds 0 [lookAt 1]).any (fun it =>
      it.tick.endflag = 0 && it.before.counter ≠ 0 && it.run.isSome &&
        it.tick.now < it.before.expTime) = true := by decide +kernel
  obtain ⟨it, hit, hstart⟩ := List.any_eq_true.mp hearly
  simp only [Bool.and_eq_true, decide_eq_true_eq] at hstart
  obtain ⟨⟨⟨hend, hcounter⟩, hrun⟩, hnow⟩ := hstart
  refine ⟨period, s, hs, fun h => ?_⟩
  have hexp := (h.starts it hit ⟨hend, hcounter⟩).mp hrun
  omega

theorem tenSeconds_onTime : ∃ period s, thPeriodicStart true tenSeconds 0 = some (period, s) ∧
    Scheduled period.seconds (thPeriodic true tenSeconds 0 [lookAt 10]) := by
  refine ⟨_, _, rfl, (thPeriodic_scheduled_iff rfl [lookAt 10]).mpr fun it hit _ => ?_⟩
  obtain rfl := List.mem_singleton.mp hit
  rfl

end Kubeka
