import Kubeka.Daemon.Steps
import Kubeka.Run.Counter

/-!
# Threads that do not disturb each other

Whatever main, the other threads and the signal do in between, the runs that a
thread makes are those of `th_periodic` run on its tree alone, with the clocks
and the end flag as the thread has read them. So what is known of one thread
holds in every interleaving, and the end flag stops each thread after the run
that it is in.
-/

namespace Kubeka

open Transition

variable {trees : List KbTree} {d d' : Daemon} {es es' : List DaemonEvent} {out out' : List NodeRun}
  {period : Kbperiod}

/-! ### Iterations one after the other -/

/-- The variables after the iterations. -/
def periodicAfter (period : Kbperiod) : Periodic → List Tick → Periodic
  | s, [] => s
  | s, tick :: ticks =>
    if s.done then s else periodicAfter period (periodicStep period s tick).1 ticks

theorem periodicLoop_done {s : Periodic} (h : s.done = true) (ticks : List Tick) :
    periodicLoop period s ticks = [] := by
  cases ticks with
  | nil => rfl
  | cons tick ticks => rw [periodicLoop, if_pos h]

theorem periodicLoop_cons {s : Periodic} (h : s.done = false) (tick : Tick) (ticks : List Tick) :
    periodicLoop period s (tick :: ticks) =
      { before := s, tick := tick, run := (periodicStep period s tick).2 } ::
        periodicLoop period (periodicStep period s tick).1 ticks := by
  rw [periodicLoop, if_neg (by simp [h])]

theorem periodicAfter_cons {s : Periodic} (h : s.done = false) (tick : Tick) (ticks : List Tick) :
    periodicAfter period s (tick :: ticks) =
      periodicAfter period (periodicStep period s tick).1 ticks := by
  rw [periodicAfter, if_neg (by simp [h])]

theorem periodicAfter_done {s : Periodic} (h : s.done = true) (ticks : List Tick) :
    periodicAfter period s ticks = s := by
  cases ticks with
  | nil => rfl
  | cons tick ticks => rw [periodicAfter, if_pos h]

theorem periodicAfter_append (s : Periodic) (ticks ticks' : List Tick) :
    periodicAfter period s (ticks ++ ticks') =
      periodicAfter period (periodicAfter period s ticks) ticks' := by
  induction ticks generalizing s with
  | nil => rfl
  | cons tick ticks ih =>
    cases hdone : s.done with
    | true => rw [periodicAfter_done hdone, periodicAfter_done hdone, periodicAfter_done hdone]
    | false => rw [List.cons_append, periodicAfter_cons hdone, periodicAfter_cons hdone, ih]

theorem periodicLoop_append (s : Periodic) (ticks ticks' : List Tick) :
    periodicLoop period s (ticks ++ ticks') = periodicLoop period s ticks ++
      periodicLoop period (periodicAfter period s ticks) ticks' := by
  induction ticks generalizing s with
  | nil => rfl
  | cons tick ticks ih =>
    cases hdone : s.done with
    | true => simp only [periodicLoop_done hdone, periodicAfter_done hdone, List.append_nil]
    | false =>
      rw [List.cons_append, periodicLoop_cons hdone, periodicLoop_cons hdone,
        periodicAfter_cons hdone, ih]
      rfl

/-- The status of the last run, or what it is before the first. -/
def lastRet (ret : CInt) (runs : List (KbTree × Ran)) : CInt :=
  (runs.getLast?.map fun run => run.2.ret).getD ret

theorem lastRet_append (ret : CInt) (runs runs' : List (KbTree × Ran)) :
    lastRet ret (runs ++ runs') = lastRet (lastRet ret runs) runs' := by
  cases hlast : runs'.getLast? with
  | none => simp [lastRet, List.getLast?_append, hlast]
  | some run => simp [lastRet, List.getLast?_append, hlast]

theorem periodicStep_ret (s : Periodic) (tick : Tick) : (periodicStep period s tick).1.ret =
    lastRet s.ret (periodicStep period s tick).2.toList := by
  unfold periodicStep
  split_ifs
  · rfl
  · rfl
  · rfl
  · dsimp only
    split_ifs <;> rfl

/-! ### A thread -/

/-- Alone, the thread is here after some iterations with these runs in them; an end flag that it has
read is still set. -/
def AfterTicks (endflag : CInt) (root : KbTree) (period : Kbperiod) (s : Periodic)
    (runs : List (KbTree × Ran)) : Prop :=
  ∃ nul now s₀ ticks, thPeriodicStart nul root now = some (period, s₀) ∧
    s = periodicAfter period s₀ ticks ∧ runs = runsOf (periodicLoop period s₀ ticks) ∧
    ∀ tick ∈ ticks, tick.endflag ≠ 0 → endflag ≠ 0

/-- How the runs that a thread has made belong to the place where it stands. -/
def KbbiThread.Alone (endflag : CInt) (th : KbbiThread) (runs : List (KbTree × Ran)) : Prop :=
  match th.place with
  | .idle | .entered | .refused => runs = []
  | .testing period s | .body period s =>
      AfterTicks endflag th.root period s runs ∧ s.done = false
  | .leaving ret | .completed ret =>
      ∃ period s, AfterTicks endflag th.root period s runs ∧ s.done = true ∧ s.ret = ret
  | .returned =>
      ∃ period s, AfterTicks endflag th.root period s runs ∧ s.done = true ∧ s.ret = th.retcode

theorem AfterTicks.mono {endflag endflag' : CInt} {root : KbTree} {s : Periodic}
    {runs : List (KbTree × Ran)} (h : AfterTicks endflag root period s runs)
    (hflag : endflag ≠ 0 → endflag' ≠ 0) : AfterTicks endflag' root period s runs := by
  obtain ⟨nul, now, s₀, ticks, hstart, hs, hruns, hread⟩ := h
  exact ⟨nul, now, s₀, ticks, hstart, hs, hruns, fun tick hmem hend => hflag (hread tick hmem hend)⟩

/-- One iteration more. -/
theorem AfterTicks.step {endflag : CInt} {root : KbTree} {s : Periodic}
    {runs : List (KbTree × Ran)} (h : AfterTicks endflag root period s runs)
    (hdone : s.done = false) (tick : Tick) (hread : tick.endflag ≠ 0 → endflag ≠ 0) :
    AfterTicks endflag root period (periodicStep period s tick).1
      (runs ++ (periodicStep period s tick).2.toList) := by
  obtain ⟨nul, now, s₀, ticks, hstart, rfl, rfl, hticks⟩ := h
  refine ⟨nul, now, s₀, ticks ++ [tick], hstart, ?_, ?_, ?_⟩
  · rw [periodicAfter_append, periodicAfter_cons hdone]
    rfl
  · rw [periodicLoop_append, periodicLoop_cons hdone, runsOf, runsOf, List.filterMap_append,
      List.filterMap_cons]
    cases (periodicStep period (periodicAfter period s₀ ticks) tick).2 <;> rfl
  · simp only [List.forall_mem_append, List.forall_mem_singleton]
    exact ⟨hticks, hread⟩

theorem KbbiThread.Alone.mono {endflag endflag' : CInt} {th : KbbiThread}
    {runs : List (KbTree × Ran)} (h : th.Alone endflag runs)
    (hflag : endflag ≠ 0 → endflag' ≠ 0) : th.Alone endflag' runs := by
  unfold KbbiThread.Alone at h ⊢
  cases hplace : th.place with
  | idle | entered | refused =>
    rw [hplace] at h
    exact h
  | testing period s | body period s =>
    rw [hplace] at h
    exact ⟨h.1.mono hflag, h.2⟩
  | leaving ret | completed ret | returned =>
    rw [hplace] at h
    obtain ⟨period, s, hafter, hdone, hret⟩ := h
    exact ⟨period, s, hafter.mono hflag, hdone, hret⟩

theorem thPeriodicStart_done {nul : Bool} {root : KbTree} {now : ℕ} {s : Periodic}
    (h : thPeriodicStart nul root now = some (period, s)) : s.done = false ∧ s.ret = exitFailure := by
  unfold thPeriodicStart at h
  split at h
  · simp at h
  · dsimp only at h
    split at h
    · simp at h
    · split at h
      · simp at h
      · obtain ⟨_, -, heq⟩ := Option.map_eq_some_iff.mp h
        obtain ⟨-, rfl⟩ := Prod.mk.inj heq
        exact ⟨rfl, rfl⟩

/-- The step of a thread that leaves the loop by its test. -/
theorem periodicStep_of_ends {s : Periodic} {tick : Tick} (h : tick.endflag ≠ 0 ∨ s.counter = 0) :
    periodicStep period s tick = ({ s with done := true }, none) := by
  unfold periodicStep
  by_cases hend : tick.endflag ≠ 0
  · rw [if_pos hend]
  · rw [if_neg hend, if_pos (h.resolve_left hend)]

theorem ThreadStep.alone {endflag : CInt} {r : Reads} {th th' : KbbiThread}
    {run : Option (KbTree × Ran)} {runs : List (KbTree × Ran)}
    (hstep : ThreadStep endflag r th th' run) (h : th.Alone endflag runs) :
    th'.Alone endflag (runs ++ run.toList) := by
  unfold KbbiThread.Alone at h ⊢
  cases hstep with
  | refuses hplace =>
    rw [hplace] at h
    subst h
    rfl
  | @starts period s hplace hstart =>
    rw [hplace] at h
    subst h
    exact ⟨⟨r.nul, r.now, s, [], hstart, rfl, rfl, by simp⟩, (thPeriodicStart_done hstart).1⟩
  | @leaves period s hplace hends =>
    rw [hplace] at h
    have hafter := h.1.step h.2 (r.tick endflag) id
    rw [periodicStep_of_ends hends] at hafter
    exact ⟨period, _, hafter, rfl, rfl⟩
  | enters hplace =>
    rw [hplace] at h
    rw [Option.toList_none, List.append_nil]
    exact h
  | @iterates period s hplace hdone =>
    rw [hplace] at h
    exact ⟨h.1.step h.2 (r.tick 0) (absurd rfl ·), hdone⟩
  | @breaks period s hplace hdone =>
    rw [hplace] at h
    exact ⟨period, _, h.1.step h.2 (r.tick 0) (absurd rfl ·), hdone, rfl⟩
  | completes hplace | returns hplace =>
    rw [hplace] at h
    rw [Option.toList_none, List.append_nil]
    exact h

/-! ### All threads -/

@[simp] theorem runsBy_nil (i : ℕ) : runsBy i [] = [] := rfl

theorem runsBy_append (i : ℕ) (out out' : List NodeRun) :
    runsBy i (out ++ out') = runsBy i out ++ runsBy i out' := by
  simp [runsBy]

theorem runsBy_run (i j : ℕ) (run : Option (KbTree × Ran)) :
    runsBy i (run.map fun run => (j, run)).toList = if j = i then run.toList else [] := by
  cases run with
  | none => simp
  | some run => by_cases h : j = i <;> simp [runsBy, h]

/-- Every thread has made the runs that belong to where it stands. -/
structure AllAlone (trees : List KbTree) (d : Daemon) (out : List NodeRun) : Prop where
  ordered : Ordered trees d
  alone : ∀ (i : ℕ) (th : KbbiThread), d.threads[i]? = some th →
    th.Alone d.endflag (runsBy i out)

theorem AllAlone.step {e : DaemonEvent} {new : List NodeRun} (h : AllAlone trees d out)
    (hstep : d.step e = some (d', new)) : AllAlone trees d' (out ++ new) := by
  refine ⟨h.ordered.step hstep, ?_⟩
  cases (daemonStep_iff.mp hstep).2 with
  | signal n =>
    rw [List.append_nil]
    exact fun i th hth => (h.alone i th hth).mono (sigh_ne_zero n)
  | main hmain =>
    rw [List.append_nil]
    cases hmain with
    | @launched i th hplace hth | @notLaunched i th _ hplace hth =>
      intro j u hu
      have hidle := h.ordered.idle_of_launching hplace hth
      rcases Lists.getElem?_set_cases hu with ⟨rfl, rfl⟩ | ⟨-, hu⟩
      · have hnone := h.alone j th hth
        simpa [KbbiThread.Alone, hidle] using hnone
      · exact h.alone j u hu
    | allLaunched | sleeps | interrupted | waits | joined | allJoined | frees | exits =>
      exact h.alone
  | @thread j r th th' run hth hthread =>
    intro i u hu
    rw [runsBy_append, runsBy_run]
    rcases Lists.getElem?_set_cases hu with ⟨rfl, rfl⟩ | ⟨hne, hu⟩
    · rw [if_pos rfl]
      exact hthread.alone (h.alone i th hth)
    · rw [if_neg (Ne.symm hne), List.append_nil]
      exact h.alone i u hu

theorem DaemonRun.allAlone (h : DaemonRun trees es d out) : AllAlone trees d out := by
  have hstart : AllAlone trees (startDaemon trees) [] := by
    refine ⟨ordered_start trees, fun i th hth => ?_⟩
    obtain ⟨root, -, rfl⟩ := List.mem_map.mp (List.mem_of_getElem? hth)
    rfl
  exact h.invariant (fun _ _ _ _ _ => AllAlone.step) hstart

theorem AfterTicks.ret {endflag : CInt} {root : KbTree} {s : Periodic} {runs : List (KbTree × Ran)}
    (h : AfterTicks endflag root period s runs) : s.ret = lastRet exitFailure runs := by
  obtain ⟨nul, now, s₀, ticks, hstart, rfl, rfl, -⟩ := h
  rw [← (thPeriodicStart_done hstart).2]
  clear hstart
  induction ticks generalizing s₀ with
  | nil => rfl
  | cons tick ticks ih =>
    cases hdone : s₀.done with
    | true =>
      rw [periodicAfter_done hdone, periodicLoop_done hdone]
      rfl
    | false =>
      have happend : runsOf (periodicLoop period s₀ (tick :: ticks)) =
          (periodicStep period s₀ tick).2.toList ++
            runsOf (periodicLoop period (periodicStep period s₀ tick).1 ticks) := by
        rw [periodicLoop_cons hdone, runsOf, List.filterMap_cons, runsOf]
        cases (periodicStep period s₀ tick).2 <;> rfl
      rw [periodicAfter_cons hdone, ih, happend, lastRet_append, periodicStep_ret]

/-- What a thread in the daemon has done: the runs of `th_periodic` on its tree alone, at whatever
times it looked at the clock; it has read an end flag only if the signal came, and returns the status
of its last run. -/
structure RunsAlone (endflag : CInt) (root : KbTree) (th : KbbiThread)
    (runs : List (KbTree × Ran)) : Prop where
  alone : ∃ nul now ticks, runs = runsOf (thPeriodic nul root now ticks) ∧
    ∀ tick ∈ ticks, tick.endflag ≠ 0 → endflag ≠ 0
  retcode : th.place = .returned → th.retcode = lastRet exitFailure runs

theorem KbbiThread.Alone.runsAlone {endflag : CInt} {th : KbbiThread} {runs : List (KbTree × Ran)}
    (h : th.Alone endflag runs) : RunsAlone endflag th.root th runs := by
  have hafter : ∀ {period s}, AfterTicks endflag th.root period s runs →
      ∃ nul now ticks, runs = runsOf (thPeriodic nul th.root now ticks) ∧
        ∀ tick ∈ ticks, tick.endflag ≠ 0 → endflag ≠ 0 := by
    rintro period s ⟨nul, now, s₀, ticks, hstart, -, rfl, hticks⟩
    exact ⟨nul, now, ticks, by simp only [thPeriodic, hstart], hticks⟩
  have hnone : ∃ nul now ticks, [] = runsOf (thPeriodic nul th.root now ticks) ∧
      ∀ tick ∈ ticks, tick.endflag ≠ 0 → endflag ≠ 0 := by
    refine ⟨true, 0, [], ?_, by simp⟩
    unfold thPeriodic
    split <;> rfl
  unfold KbbiThread.Alone at h
  cases hplace : th.place with
  | idle | entered | refused =>
    rw [hplace] at h
    subst h
    exact ⟨hnone, by simp [hplace]⟩
  | testing period s | body period s =>
    rw [hplace] at h
    exact ⟨hafter h.1, by simp [hplace]⟩
  | leaving ret | completed ret =>
    rw [hplace] at h
    obtain ⟨period, s, h, -, -⟩ := h
    exact ⟨hafter h, by simp [hplace]⟩
  | returned =>
    rw [hplace] at h
    obtain ⟨period, s, h, -, hret⟩ := h
    exact ⟨hafter h, fun _ => hret.symm.trans h.ret⟩

/-- In every interleaving each thread does what it would do alone. -/
theorem daemonRun_runsAlone (h : DaemonRun trees es d out) {i : ℕ} {root : KbTree}
    (hroot : trees[i]? = some root) :
    ∃ th, d.threads[i]? = some th ∧ RunsAlone d.endflag root th (runsBy i out) := by
  obtain ⟨th, hth, rfl⟩ := h.allAlone.ordered.getElem?_root hroot
  exact ⟨th, hth, (h.allAlone.alone i th hth).runsAlone⟩

/-- A periodic node that is to be run two times. -/
def heartbeat : KbTree :=
  .node .periodic (symtabOf [(kbnodeKeyId, ["p".toList]), (kbnodeKeyFname, ["f".toList]),
    (kbnodeKeyLine, ["1".toList]), (kbnodeKeyExec, ["true".toList]),
    (kbnodeKeyPeriod, ["1sec".toList]), (kbnodeKeyCounter, ["2".toList])]) [] []

/-- A look at the clock with commands that succeed. -/
def readsAt (now : ℕ) : Reads := { nul := true, now := now, reset := now, shell := fun _ _ _ => 0 }

/-- Two threads are created, and while the first runs its node the signal comes. -/
def interrupted : List DaemonEvent :=
  [.main true, .thread 0 (readsAt 0), .main true, .thread 0 (readsAt 0), .thread 1 (readsAt 5),
    .signal sigint, .main true, .thread 0 (readsAt 1), .thread 1 (readsAt 6), .thread 0 (readsAt 1)]

theorem interrupted_runsAlone : ∃ d out, DaemonRun [heartbeat, heartbeat] interrupted d out ∧
    (runsBy 0 out).length = 1 ∧
    ∃ th, d.threads[0]? = some th ∧ RunsAlone d.endflag heartbeat th (runsBy 0 out) := by
  obtain ⟨d, out, hrun, hone⟩ := exists_run Daemon.step (startDaemon [heartbeat, heartbeat])
    interrupted (fun r => (runsBy 0 r.2).length = 1) (by decide +kernel)
  exact ⟨d, out, hrun, of_decide_eq_true hone, daemonRun_runsAlone hrun rfl⟩

/-- In every interleaving a node is run as often as its COUNTER says at most, and each run sees how
many are left. -/
theorem daemonRun_countsRuns (h : DaemonRun trees es d out) {i n : ℕ} {root : KbTree}
    (hroot : trees[i]? = some root)
    (hgiven : kbnodeGetvalueFirst root.symtab kbnodeKeyCounter ≠ [])
    (hcounter : sscanfUnsigned 64 (kbnodeGetvalueFirst root.symtab kbnodeKeyCounter) = some n)
    (hlt : n < 2 ^ 64 - 1) : (runsBy i out).length ≤ n ∧
      ∀ k run, (runsBy i out)[k]? = some run →
        kbnodeGetvalueFirst run.1.symtab kbnodeKeyCounter = Nat.toDigits 10 (n - (k + 1)) := by
  obtain ⟨th, hth, rfl⟩ := h.allAlone.ordered.getElem?_root hroot
  obtain ⟨nul, now, ticks, hruns, -⟩ := (h.allAlone.alone i th hth).runsAlone.alone
  rw [hruns]
  unfold thPeriodic
  cases hstart : thPeriodicStart nul th.root now with
  | none => simp [runsOf]
  | some start =>
    have hleft := thPeriodicStart_hasLeft hstart hgiven hcounter hlt
    have hcounts : CountsRuns start.1 n (periodicLoop start.1 start.2 ticks) :=
      periodicLoop_countsRuns hleft ticks
    exact ⟨hcounts.atMost, hcounts.left⟩

theorem interrupted_countsRuns : ∃ d out, DaemonRun [heartbeat, heartbeat] interrupted d out ∧
    (runsBy 0 out).length ≤ 2 ∧ ∀ k run, (runsBy 0 out)[k]? = some run →
      kbnodeGetvalueFirst run.1.symtab kbnodeKeyCounter = Nat.toDigits 10 (2 - (k + 1)) := by
  obtain ⟨d, out, hrun, -⟩ := exists_run Daemon.step (startDaemon [heartbeat, heartbeat])
    interrupted (fun _ => true) (by decide +kernel)
  exact ⟨d, out, hrun, daemonRun_countsRuns hrun rfl (by decide) (by decide +kernel) (by decide)⟩

/-! ### After the signal -/

/-- The thread is in the body of its loop. -/
def ThreadPlace.InBody : ThreadPlace → Prop
  | .body _ _ => True
  | _ => False

instance : DecidablePred ThreadPlace.InBody
  | .body _ _ => isTrue trivial
  | .idle | .entered | .refused | .testing _ _ | .leaving _ | .completed _ | .returned => isFalse id

/-- The thread `i` is in the body of its loop. -/
def Daemon.InBody (d : Daemon) (i : ℕ) : Prop := ∃ th, d.threads[i]? = some th ∧ th.place.InBody

/-- The runs that are made after the signal are of threads that were in the body of their loop, one
of each, and these leave it. -/
structure FinishesRuns (d d' : Daemon) (new : List NodeRun) : Prop where
  flag : d'.endflag ≠ 0
  once : ∀ i, (runsBy i new).length ≤ 1
  leaves : ∀ i, d'.InBody i → runsBy i new = []
  began : ∀ i, d'.InBody i ∨ runsBy i new ≠ [] → d.InBody i

theorem ThreadStep.after_signal {endflag : CInt} {r : Reads} {th th' : KbbiThread}
    {run : Option (KbTree × Ran)} (h : ThreadStep endflag r th th' run) (hflag : endflag ≠ 0) :
    ¬ th'.place.InBody ∧ (run ≠ none → th.place.InBody) := by
  cases h with
  | refuses | starts | leaves | completes | returns => exact ⟨id, fun h => absurd rfl h⟩
  | enters _ hzero => exact absurd hzero hflag
  | iterates hplace | breaks hplace =>
    refine ⟨id, fun _ => ?_⟩
    rw [hplace]
    trivial

theorem MainStep.inBody {created : Bool} (h : MainStep d created d') {i : ℕ} (hi : d'.InBody i) :
    d.InBody i := by
  obtain ⟨u, hu, hbody⟩ := hi
  cases h with
  | launched hmain hth =>
    rcases Lists.getElem?_set_cases hu with ⟨rfl, rfl⟩ | ⟨-, hu⟩
    · exact absurd hbody id
    · exact ⟨u, hu, hbody⟩
  | notLaunched hmain hth =>
    rcases Lists.getElem?_set_cases hu with ⟨rfl, rfl⟩ | ⟨-, hu⟩
    · exact ⟨_, hth, hbody⟩
    · exact ⟨u, hu, hbody⟩
  | allLaunched | sleeps | interrupted | waits | joined | allJoined | frees | exits =>
    exact ⟨u, hu, hbody⟩

theorem FinishesRuns.step {d'' : Daemon} {e : DaemonEvent} {new : List NodeRun}
    (h : FinishesRuns d d' out) (hstep : d'.step e = some (d'', new)) :
    FinishesRuns d d'' (out ++ new) := by
  cases (daemonStep_iff.mp hstep).2 with
  | signal n =>
    rw [List.append_nil]
    exact ⟨sigh_ne_zero n h.flag, h.once, h.leaves, h.began⟩
  | main hmain =>
    rw [List.append_nil]
    exact ⟨hmain.endflag ▸ h.flag, h.once, fun i hi => h.leaves i (hmain.inBody hi),
      fun i hi => h.began i (hi.imp_left hmain.inBody)⟩
  | @thread j r th th' run hth hthread =>
    obtain ⟨hout, hbody⟩ := hthread.after_signal h.flag
    -- the thread that takes the step is not in the body afterwards, the others are where they were
    have hother : ∀ i, ({ d' with threads := d'.threads.set j th' } : Daemon).InBody i →
        i ≠ j ∧ d'.InBody i := by
      rintro i ⟨u, hu, hin⟩
      rcases Lists.getElem?_set_cases hu with ⟨rfl, rfl⟩ | ⟨hne, hu⟩
      · exact absurd hin hout
      · exact ⟨hne, u, hu, hin⟩
    have hnew : ∀ i, runsBy i (out ++ (run.map fun run => (j, run)).toList) = runsBy i out ∨
        j = i ∧ run ≠ none ∧ d'.InBody i ∧ runsBy i out = [] := by
      intro i
      rw [runsBy_append, runsBy_run]
      by_cases hji : j = i
      · subst hji
        cases hrun : run with
        | none => exact .inl (by simp)
        | some r =>
          have hin : d'.InBody j := ⟨th, hth, hbody (by simp [hrun])⟩
          exact .inr ⟨rfl, by simp, hin, h.leaves j hin⟩
      · exact .inl (by simp [hji])
    refine ⟨h.flag, fun i => ?_, fun i hi => ?_, fun i hi => ?_⟩
    · rcases hnew i with heq | ⟨rfl, -, -, hnil⟩
      · rw [heq]
        exact h.once i
      · rw [runsBy_append, hnil, runsBy_run, if_pos rfl, List.nil_append]
        exact Option.length_toList_le
    · obtain ⟨hne, hin⟩ := hother i hi
      rw [(hnew i).resolve_right fun hrun => hne hrun.1.symm]
      exact h.leaves i hin
    · rcases hi with hi | hi
      · exact h.began i (.inl (hother i hi).2)
      · rcases hnew i with heq | ⟨-, -, hin, -⟩
        · rw [heq] at hi
          exact h.began i (.inr hi)
        · exact h.began i (.inl hin)

/-- After the signal a thread that is in the body of its loop makes one more run at most, and the
others make none. -/
theorem daemonRun_finishesRuns (hflag : d.endflag ≠ 0) (h : Run Daemon.step d es d' out) :
    FinishesRuns d d' out := by
  have hstart : FinishesRuns d d [] :=
    ⟨hflag, fun i => by simp, fun i _ => rfl, fun i hi => hi.resolve_right (by simp)⟩
  exact h.invariant (fun _ _ _ _ _ => FinishesRuns.step) hstart

theorem interrupted_finishesRuns : ∃ d d' out, d.endflag ≠ 0 ∧ d.InBody 0 ∧
    (runsBy 0 out).length = 1 ∧ FinishesRuns d d' out := by
  have hbody : ThreadPlace.InBody (.body ⟨1, 1⟩ ⟨heartbeat, 2, 1, 0, 0, 0, false⟩) := trivial
  let d : Daemon :=
    { endflag := 1, main := .watching
      threads := [⟨heartbeat, exitFailure, false, .body ⟨1, 1⟩ ⟨heartbeat, 2, 1, 0, 0, 0, false⟩⟩] }
  obtain ⟨d', out, hrun, hone⟩ := exists_run Daemon.step d
    [.thread 0 (readsAt 1), .main true, .thread 0 (readsAt 2)]
    (fun r => (runsBy 0 r.2).length = 1) (by decide +kernel)
  exact ⟨d, d', out, by decide, ⟨_, rfl, hbody⟩, of_decide_eq_true hone,
    daemonRun_finishesRuns (by decide) hrun⟩

end Kubeka
