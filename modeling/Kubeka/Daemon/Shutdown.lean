import Kubeka.Daemon.Alone

/-!
# Shutting down

After the signal every step takes some thread or `main` nearer to its end, so a
daemon whose threads all get to their loops has to exit whatever the order of
the steps. A thread that returns before its loop never sets `completed`, and
`main` waits for it for ever. When `main` frees the trees after its two waits no
thread uses them, but a thread may still have to store its `retcode` in the
table that is freed. When a thread could not be launched `main` does not wait at
all.
-/

namespace Kubeka

open Transition

variable {trees : List KbTree} {d d' : Daemon} {es : List DaemonEvent} {out : List NodeRun}

/-! ### A number that every step after the signal lowers -/

def ThreadPlace.rank : ThreadPlace → ℕ
  | .idle => 6
  | .entered => 5
  | .body _ _ => 4
  | .testing _ _ => 3
  | .leaving _ => 2
  | .completed _ => 1
  | .refused | .returned => 0

/-- `n` is the number of threads. -/
def MainPlace.rank (n : ℕ) : MainPlace → ℕ
  | .launching i => (n - i) + n + 5
  | .watching => n + 4
  | .joining i => (n - i) + 3
  | .cleanup _ => 2
  | .freed _ => 1
  | .exited _ => 0

def Daemon.rank (d : Daemon) : ℕ :=
  d.main.rank d.threads.length + (d.threads.map fun th => th.place.rank).sum

theorem Daemon.rank_le (d : Daemon) : d.rank ≤ 8 * d.threads.length + 5 := by
  have hmain : d.main.rank d.threads.length ≤ 2 * d.threads.length + 5 := by
    cases d.main <;> simp only [MainPlace.rank] <;> omega
  have hthreads : (d.threads.map fun th => th.place.rank).sum ≤ 6 * d.threads.length := by
    have hplace : ∀ n ∈ d.threads.map fun th => th.place.rank, n ≤ 6 := by
      simp only [List.forall_mem_map]
      intro th _
      cases th.place <;> simp [ThreadPlace.rank]
    have hsum := List.sum_le_card_nsmul _ 6 hplace
    rw [List.length_map, smul_eq_mul] at hsum
    omega
  rw [Daemon.rank]
  omega

theorem ThreadStep.rank_lt {endflag : CInt} {r : Reads} {th th' : KbbiThread}
    {run : Option (KbTree × Ran)} (h : ThreadStep endflag r th th' run) (hflag : endflag ≠ 0) :
    th'.place.rank < th.place.rank := by
  cases h with
  | refuses hplace | starts hplace | leaves hplace | iterates hplace | breaks hplace
  | completes hplace | returns hplace => simp [hplace, ThreadPlace.rank]
  | enters hplace hzero => exact absurd hzero hflag

theorem Daemon.rank_set_thread {i : ℕ} {th : KbbiThread} (hth : d.threads[i]? = some th)
    (th' : KbbiThread) : Daemon.rank { d with threads := d.threads.set i th' } + th.place.rank =
      d.rank + th'.place.rank := by
  have hsum := Lists.sum_map_set (fun th => th.place.rank) hth th'
  simp only [Daemon.rank, List.length_set]
  omega

/-- A step of `main` leaves everything as it is or brings the end nearer. -/
theorem MainStep.rank_lt {created : Bool} (h : MainStep d created d') (hd : Ordered trees d) :
    d' = d ∨ d'.rank < d.rank := by
  cases h with
  | @launched i th hmain hth =>
    right
    have hidle := hd.idle_of_launching hmain hth
    have hlt := (List.getElem?_eq_some_iff.mp hth).1
    have hsum := Lists.sum_map_set (fun th => th.place.rank) hth
      { th with retcode := exitFailure, completed := false, place := .entered }
    simp only [Daemon.rank, hmain, MainPlace.rank, List.length_set, hidle, ThreadPlace.rank] at hsum ⊢
    omega
  | @notLaunched i th _ hmain hth =>
    right
    have hsum := Lists.sum_map_set (fun th => th.place.rank) hth
      { th with retcode := exitFailure, completed := false }
    simp only [Daemon.rank, hmain, MainPlace.rank] at hsum ⊢
    omega
  | sleeps | waits => exact .inl rfl
  | @joined i th _ hmain hth =>
    right
    have hlt := (List.getElem?_eq_some_iff.mp hth).1
    simp only [Daemon.rank, hmain, MainPlace.rank]
    omega
  | allLaunched hmain | interrupted hmain | allJoined hmain | frees hmain | exits hmain =>
    right
    simp only [Daemon.rank, hmain, MainPlace.rank]
    omega

theorem daemonStep_rank_lt {e : DaemonEvent} (h : d.step e = some (d', out)) (hd : Ordered trees d)
    (hflag : d.endflag ≠ 0) : d' = d ∨ d'.rank < d.rank := by
  cases (daemonStep_iff.mp h).2 with
  | signal n =>
    left
    have hone : d.endflag = 1 := hd.flag.resolve_left hflag
    have hsigh : sigh d.endflag n = d.endflag := by
      unfold sigh
      split_ifs
      · exact hone.symm
      · rfl
    rw [hsigh]
  | main hmain => exact hmain.rank_lt hd
  | @thread i r th th' run hth hthread =>
    right
    have hrank := Daemon.rank_set_thread hth th'
    have hlt := hthread.rank_lt hflag
    omega

/-! ### Threads that can complete -/

/-- The thread has not returned before its loop, and need not. -/
structure KbbiThread.CanComplete (th : KbbiThread) : Prop where
  notRefused : th.place ≠ .refused
  starts : th.place = .entered → ∃ nul now, thPeriodicStart nul th.root now ≠ none

/-- After the signal a thread that can complete and has not can take a step towards it. -/
theorem KbbiThread.CanComplete.goesOn {endflag : CInt} {th : KbbiThread} (h : th.CanComplete)
    (hcreated : th.place ≠ .idle) (hnot : ¬ th.place.HasCompleted) (hflag : endflag ≠ 0) :
    ∃ r th' run, ThreadStep endflag r th th' run ∧ th'.CanComplete ∧ th'.place ≠ .returned := by
  let r : Reads := { nul := true, now := 0, reset := 0, shell := fun _ _ _ => 0 }
  cases hplace : th.place with
  | idle => exact absurd hplace hcreated
  | refused => exact absurd hplace h.notRefused
  | completed ret | returned =>
    rw [hplace] at hnot
    exact absurd trivial hnot
  | entered =>
    obtain ⟨nul, now, hstart⟩ := h.starts hplace
    obtain ⟨⟨period, s⟩, hstart⟩ := Option.ne_none_iff_exists'.mp hstart
    exact ⟨{ r with nul := nul, now := now }, _, _, .starts hplace hstart, ⟨by simp, by simp⟩, by simp⟩
  | testing period s =>
    exact ⟨r, _, _, .leaves hplace (.inl hflag), ⟨by simp, by simp⟩, by simp⟩
  | body period s =>
    cases hdone : (periodicStep period s (r.tick 0)).1.done with
    | false => exact ⟨r, _, _, .iterates hplace hdone, ⟨by simp, by simp⟩, by simp⟩
    | true => exact ⟨r, _, _, .breaks hplace hdone, ⟨by simp, by simp⟩, by simp⟩
  | leaving ret => exact ⟨r, _, _, .completes hplace, ⟨by simp, by simp⟩, by simp⟩

/-- A thread that has completed is at the end of `th_periodic`. -/
theorem ThreadPlace.hasCompleted_iff {place : ThreadPlace} :
    place.HasCompleted ↔ (∃ ret, place = .completed ret) ∨ place = .returned := by
  cases place <;> simp [ThreadPlace.HasCompleted]

theorem KbbiThread.canComplete_of_hasCompleted {th : KbbiThread} (h : th.place.HasCompleted) :
    th.CanComplete := by
  rcases ThreadPlace.hasCompleted_iff.mp h with ⟨ret, hplace⟩ | hplace
  · exact ⟨by simp [hplace], by simp [hplace]⟩
  · exact ⟨by simp [hplace], by simp [hplace]⟩

theorem Ordered.hasCompleted_of_success (h : Ordered trees d)
    (hmain : d.main = .cleanup true ∨ d.main = .freed true ∨ d.main = .exited true) :
    d.endflag ≠ 0 ∧ ∀ th ∈ d.threads, th.place.HasCompleted := by
  have hknows : d.endflag ≠ 0 ∧ ∀ th ∈ d.threads, th.completed = true := by
    have hall := h.main
    rcases hmain with hmain | hmain | hmain <;> (rw [hmain] at hall; exact hall)
  exact ⟨hknows.1, fun th hth => (h.completed th hth).mp (hknows.2 th hth)⟩

/-! ### Main waits for every thread -/

/-- After the signal `main` is in one of its waits or behind them, and every thread can complete;
threads that have returned are at certain positions only. -/
structure Waits (trees : List KbTree) (R : ℕ → Prop) (d : Daemon) : Prop where
  ordered : Ordered trees d
  flag : d.endflag ≠ 0
  main : d.main = .watching ∨ (∃ i, d.main = .joining i) ∨ d.main = .cleanup true ∨
    d.main = .freed true
  threads : ∀ th ∈ d.threads, th.CanComplete
  returned : ∀ (i : ℕ) (th : KbbiThread), d.threads[i]? = some th → th.place = .returned → R i

theorem Waits.mainStep {R : ℕ → Prop} {place : MainPlace} (h : Waits trees R d)
    (hstep : MainStep d true { d with main := place }) (hne : d.main ≠ place)
    (hnot : ∀ success, d.main ≠ .exited success)
    (hplace : place = .watching ∨ (∃ i, place = .joining i) ∨ place = .cleanup true ∨
      place = .freed true) :
    ∃ e d' out, d.step e = some (d', out) ∧ Waits trees R d' ∧ d'.rank < d.rank := by
  have hne' : { d with main := place } ≠ d := fun heq => hne (congrArg Daemon.main heq).symm
  exact ⟨.main true, _, [], daemonStep_iff.mpr ⟨hnot, .main hstep⟩,
    ⟨h.ordered.mainStep hstep, h.flag, hplace, h.threads, h.returned⟩,
    (hstep.rank_lt h.ordered).resolve_left hne'⟩

theorem Waits.goesOn {R : ℕ → Prop} (h : Waits trees R d) (hend : d.main ≠ .freed true) :
    ∃ e d' out, d.step e = some (d', out) ∧ Waits trees R d' ∧ d'.rank < d.rank := by
  have hnot : ∀ success, d.main ≠ .exited success := by
    intro success heq
    rcases h.main with hmain | ⟨i, hmain⟩ | hmain | hmain <;> simp [hmain] at heq
  rcases h.main with hmain | ⟨i, hmain⟩ | hmain | hmain
  · exact h.mainStep (.interrupted hmain h.flag) (by simp [hmain]) hnot (.inr (.inl ⟨0, rfl⟩))
  · cases hth : d.threads[i]? with
    | none =>
      exact h.mainStep (.allJoined hmain hth) (by simp [hmain]) hnot (.inr (.inr (.inl rfl)))
    | some th =>
      by_cases hdone : th.completed = true
      · exact h.mainStep (.joined hmain hth hdone) (by simp [hmain]) hnot (.inr (.inl ⟨_, rfl⟩))
      · have hmem := List.mem_of_getElem? hth
        have hknows := h.ordered.main
        rw [hmain] at hknows
        obtain ⟨r, th', run, hstep, hcan, hreturned⟩ := (h.threads th hmem).goesOn
          (hknows.2.1 th hmem) (mt (h.ordered.completed th hmem).mpr hdone) h.flag
        have hrank := Daemon.rank_set_thread hth th'
        have hlt := hstep.rank_lt h.flag
        refine ⟨.thread i r, _, _, daemonStep_iff.mpr ⟨hnot, .thread hth hstep⟩,
          ⟨h.ordered.set_thread hth hstep.kept, h.flag, .inr (.inl ⟨i, hmain⟩),
            Lists.forall_mem_set h.threads hcan, fun j u hu hplace => ?_⟩, by omega⟩
        rcases Lists.getElem?_set_cases hu with ⟨rfl, rfl⟩ | ⟨-, hu⟩
        · exact absurd hplace hreturned
        · exact h.returned j u hu hplace
  · exact h.mainStep (.frees hmain) (by simp [hmain]) hnot (.inr (.inr (.inr rfl)))
  · exact absurd hmain hend

theorem Waits.reaches_freed {R : ℕ → Prop} (h : Waits trees R d) :
    ∃ es d' out, Run Daemon.step d es d' out ∧ d'.main = .freed true ∧ Waits trees R d' := by
  refine exists_run_of_rank (P := Waits trees R) Daemon.rank (fun d hd hfinal => ?_) h
  exact hd.goesOn fun hmain => hfinal ⟨hmain, hd⟩

/-- `main` is in one of its two waits. -/
def Daemon.Waiting (d : Daemon) : Prop := d.main = .watching ∨ ∃ i, d.main = .joining i

theorem Ordered.waits_signal (h : Ordered trees d) (hmain : d.Waiting)
    (hcan : ∀ th ∈ d.threads, th.CanComplete) :
    ∃ d', d.step (.signal sigint) = some (d', []) ∧
      Waits trees (fun i => ∃ th, d.threads[i]? = some th ∧ th.place = .returned) d' := by
  have hnot : ∀ success, d.main ≠ .exited success := by
    intro success heq
    rcases hmain with hmain | ⟨i, hmain⟩ <;> simp [hmain] at heq
  refine ⟨_, daemonStep_iff.mpr ⟨hnot, .signal sigint⟩, h.signal sigint, ?_,
    hmain.elim .inl fun hjoining => .inr (.inl hjoining), hcan, fun i th hth hplace => ⟨th, hth, hplace⟩⟩
  simp [sigh]

/-- A thread that cannot complete never does. -/
def Stuck (i : ℕ) (d : Daemon) : Prop :=
  ∃ th, d.threads[i]? = some th ∧ th.place ≠ .idle ∧ ¬ th.CanComplete

theorem Stuck.step {i : ℕ} {e : DaemonEvent} (h : Stuck i d) (hd : Ordered trees d)
    (hstep : d.step e = some (d', out)) : Stuck i d' := by
  obtain ⟨th, hth, hcreated, hcannot⟩ := h
  have hlt := (List.getElem?_eq_some_iff.mp hth).1
  cases (daemonStep_iff.mp hstep).2 with
  | signal n => exact ⟨th, hth, hcreated, hcannot⟩
  | main hmain =>
    have hset : ∀ {j u} (u' : KbbiThread), d.main = .launching j → d.threads[j]? = some u →
        (d.threads.set j u')[i]? = some th := by
      intro j u u' hplace hu
      have hne : j ≠ i := by
        rintro rfl
        obtain rfl := Option.some.inj (hth.symm.trans hu)
        exact hcreated (hd.idle_of_launching hplace hth)
      rw [List.getElem?_set_ne hne]
      exact hth
    cases hmain with
    | launched hplace hu | notLaunched hplace hu =>
      exact ⟨th, hset _ hplace hu, hcreated, hcannot⟩
    | allLaunched | sleeps | interrupted | waits | joined | allJoined | frees | exits =>
      exact ⟨th, hth, hcreated, hcannot⟩
  | @thread j r u u' run hu hthread =>
    by_cases hji : j = i
    · subst hji
      obtain rfl := Option.some.inj (hth.symm.trans hu)
      refine ⟨u', List.getElem?_set_self hlt, hthread.kept.created.2, fun hcan => hcannot ?_⟩
      cases hthread with
      | refuses hplace hnone => exact absurd rfl hcan.notRefused
      | starts hplace hstart => exact ⟨by simp [hplace], fun _ => ⟨r.nul, r.now, by simp [hstart]⟩⟩
      | leaves hplace | enters hplace | iterates hplace | breaks hplace | completes hplace
      | returns hplace => exact ⟨by simp [hplace], by simp [hplace]⟩
    · exact ⟨th, by rw [List.getElem?_set_ne hji]; exact hth, hcreated, hcannot⟩

/-! ### Main results -/

/-- When `main` frees the trees after its two waits, or is about to, the signal has come and every
thread has set `completed`: none uses its tree any more. -/
theorem daemonRun_freed (h : DaemonRun trees es d out)
    (hmain : d.main = .cleanup true ∨ d.main = .freed true ∨ d.main = .exited true) :
    d.endflag ≠ 0 ∧ ∀ th ∈ d.threads, (∃ ret, th.place = .completed ret) ∨ th.place = .returned := by
  obtain ⟨hflag, hall⟩ := h.ordered.hasCompleted_of_success hmain
  exact ⟨hflag, fun th hth => ThreadPlace.hasCompleted_iff.mp (hall th hth)⟩

/-- One thread, which has looked at the end flag once. -/
def awake : List DaemonEvent := [.main true, .main true, .thread 0 (readsAt 0), .thread 0 (readsAt 0)]

/-- The signal comes, and `main` frees what the thread has worked on. -/
def stopped : List DaemonEvent :=
  awake ++ [.signal sigint, .thread 0 (readsAt 1), .thread 0 (readsAt 1), .main true,
    .thread 0 (readsAt 1), .main true, .main true, .main true]

theorem stopped_freed : ∃ d out, DaemonRun [heartbeat] stopped d out ∧ d.main = .freed true ∧
    d.endflag ≠ 0 ∧ ∀ th ∈ d.threads, (∃ ret, th.place = .completed ret) ∨ th.place = .returned := by
  obtain ⟨d, out, hrun, hfreed⟩ := exists_run Daemon.step (startDaemon [heartbeat]) stopped
    (fun r => r.1.main = .freed true) (by decide +kernel)
  have hmain : d.main = .freed true := of_decide_eq_true hfreed
  exact ⟨d, out, hrun, hmain, daemonRun_freed hrun (.inr (.inl hmain))⟩

/-- A daemon that waits can still exit with success exactly when no thread has returned before its
loop and each that has not begun can get there. -/
theorem daemonRun_exits_iff (h : DaemonRun trees es d out) (hmain : d.Waiting) :
    (∃ es' d' new, Run Daemon.step d es' d' new ∧ d'.main = .exited true) ↔
      ∀ th ∈ d.threads, th.CanComplete := by
  have hd := h.ordered
  constructor
  · rintro ⟨es', d', new, hrun, hexit⟩ th hmem
    by_contra hcannot
    obtain ⟨i, hth⟩ := List.mem_iff_getElem?.mp hmem
    have hcreated : th.place ≠ .idle := by
      have hknows := hd.main
      rcases hmain with hplace | ⟨j, hplace⟩
      · rw [hplace] at hknows
        exact hknows th hmem
      · rw [hplace] at hknows
        exact hknows.2.1 th hmem
    obtain ⟨hd', u, hu, -, hu'⟩ := hrun.preserves (P := fun d => Ordered trees d ∧ Stuck i d)
      (fun _ _ _ _ hP hstep => ⟨hP.1.step hstep, hP.2.step hP.1 hstep⟩)
      ⟨hd, th, hth, hcreated, hcannot⟩
    exact hu' (KbbiThread.canComplete_of_hasCompleted
      ((hd'.hasCompleted_of_success (.inr (.inr hexit))).2 u (List.mem_of_getElem? hu)))
  · intro hcan
    obtain ⟨d₁, hsignal, hwaits⟩ := hd.waits_signal hmain hcan
    obtain ⟨es', d', new, hrun, hfreed, -⟩ := hwaits.reaches_freed
    have hexit : d'.step (.main true) = some ({ d' with main := .exited true }, []) :=
      daemonStep_iff.mpr ⟨by simp [hfreed], .main (.exits hfreed)⟩
    exact ⟨_, _, _, (Run.cons hsignal hrun).append (.single hexit), rfl⟩

theorem exists_awake : ∃ d out, DaemonRun [heartbeat] awake d out ∧ d.Waiting ∧
    ∀ th ∈ d.threads, th.CanComplete ∧ th.place ≠ .returned := by
  obtain ⟨d, out, hrun, h⟩ := exists_run Daemon.step (startDaemon [heartbeat]) awake
    (fun r => decide (r.1.main = .watching ∧ ∀ th ∈ r.1.threads, th.place.InBody))
    (by decide +kernel)
  obtain ⟨hmain, hbody⟩ := of_decide_eq_true h
  refine ⟨d, out, hrun, .inl hmain, fun th hth => ?_⟩
  have hth' := hbody th hth
  exact ⟨⟨fun hplace => by simp [hplace, ThreadPlace.InBody] at hth',
    fun hplace => by simp [hplace, ThreadPlace.InBody] at hth'⟩,
    fun hplace => by simp [hplace, ThreadPlace.InBody] at hth'⟩

theorem awake_exits : ∃ d out, DaemonRun [heartbeat] awake d out ∧ d.Waiting ∧
    ∃ es' d' new, Run Daemon.step d es' d' new ∧ d'.main = .exited true := by
  obtain ⟨d, out, hrun, hmain, hbody⟩ := exists_awake
  exact ⟨d, out, hrun, hmain, (daemonRun_exits_iff hrun hmain).mpr fun th hth => (hbody th hth).1⟩

/-- Whenever the daemon can still exit with success, it can also free the table of the threads before
a given thread that has not returned yet stores its `retcode` there. -/
theorem daemonRun_lateRetcode (h : DaemonRun trees es d out) (hmain : d.Waiting)
    (hcan : ∀ th ∈ d.threads, th.CanComplete) {i : ℕ} {th : KbbiThread}
    (hth : d.threads[i]? = some th) (hplace : th.place ≠ .returned) :
    ∃ es' d' new, Run Daemon.step d es' d' new ∧ d'.main = .freed true ∧
      ∃ th' ret, d'.threads[i]? = some th' ∧ th'.root = th.root ∧ th'.place = .completed ret := by
  obtain ⟨d₁, hsignal, hwaits⟩ := h.ordered.waits_signal hmain hcan
  obtain ⟨es', d', new, hrun, hfreed, hwaits'⟩ := hwaits.reaches_freed
  have hroot : trees[i]? = some th.root := by
    rw [← h.ordered.roots, List.getElem?_map, hth]
    rfl
  rw [← hwaits'.ordered.roots, List.getElem?_map] at hroot
  obtain ⟨th', hth', hroot'⟩ := Option.map_eq_some_iff.mp hroot
  refine ⟨_, d', _, .cons hsignal hrun, hfreed, th', ?_⟩
  have hall := (hwaits'.ordered.hasCompleted_of_success (.inr (.inl hfreed))).2 th'
    (List.mem_of_getElem? hth')
  rcases ThreadPlace.hasCompleted_iff.mp hall with ⟨ret, hret⟩ | hreturned
  · exact ⟨ret, hth', hroot', hret⟩
  · obtain ⟨u, hu, hu'⟩ := hwaits'.returned i th' hth' hreturned
    obtain rfl := Option.some.inj (hth.symm.trans hu)
    exact absurd hu' hplace

theorem awake_lateRetcode : ∃ d out th, DaemonRun [heartbeat] awake d out ∧ d.threads[0]? = some th ∧
    ∃ es' d' new, Run Daemon.step d es' d' new ∧ d'.main = .freed true ∧
      ∃ th' ret, d'.threads[0]? = some th' ∧ th'.root = th.root ∧ th'.place = .completed ret := by
  obtain ⟨d, out, hrun, hmain, hbody⟩ := exists_awake
  obtain ⟨th, hth, -⟩ := hrun.ordered.getElem?_root (i := 0) rfl
  exact ⟨d, out, th, hrun, hth, daemonRun_lateRetcode hrun hmain (fun th hth => (hbody th hth).1) hth
    (hbody th (List.mem_of_getElem? hth)).2⟩

/-- The thread of the tree gets to its loop whenever it looks at the clock. -/
def Accepted (root : KbTree) : Prop := ∀ nul now, thPeriodicStart nul root now ≠ none

/-- The daemon takes `n` steps that change anything at most, and until it has exited there is one
that it can take. -/
structure ShutsDown (n : ℕ) (d : Daemon) : Prop where
  bounded : ∀ es, changes Daemon.step d es ≤ n
  goesOn : ∀ es d' new, Run Daemon.step d es d' new → (∃ success, d'.main = .exited success) ∨
    ∃ e d'' new', d'.step e = some (d'', new') ∧ d'' ≠ d'

theorem DaemonRun.notRefused (haccepted : ∀ root ∈ trees, Accepted root)
    (h : DaemonRun trees es d out) : ∀ th ∈ d.threads, th.place ≠ .refused := by
  suffices hboth : Ordered trees d ∧ ∀ th ∈ d.threads, th.place ≠ .refused from hboth.2
  refine h.preserves (P := fun d => Ordered trees d ∧ ∀ th ∈ d.threads, th.place ≠ .refused)
    (fun d e d' out hd hstep => ⟨hd.1.step hstep, ?_⟩) ⟨ordered_start trees, by simp [startDaemon]⟩
  cases (daemonStep_iff.mp hstep).2 with
  | signal n => exact hd.2
  | main hmain =>
    cases hmain with
    | launched hplace hth => exact Lists.forall_mem_set hd.2 (by simp)
    | notLaunched hplace hth =>
      have hold := hd.2 _ (List.mem_of_getElem? hth)
      exact Lists.forall_mem_set hd.2 hold
    | allLaunched | sleeps | interrupted | waits | joined | allJoined | frees | exits => exact hd.2
  | thread hth hthread =>
    refine Lists.forall_mem_set hd.2 ?_
    cases hthread with
    | refuses hplace hnone =>
      refine absurd hnone (haccepted _ ?_ _ _)
      rw [← hd.1.roots]
      exact List.mem_map_of_mem (List.mem_of_getElem? hth)
    | starts | leaves | enters | iterates | breaks | completes | returns => simp

/-- Whatever `main` does next changes something, unless it waits. -/
theorem Daemon.mainGoesOn (hmain : ¬ d.Waiting)
    (hend : ∀ success, d.main ≠ .exited success) :
    ∃ e d' out, d.step e = some (d', out) ∧ d' ≠ d := by
  have hgoes : ∀ {d'}, MainStep d true d' → d'.main ≠ d.main →
      ∃ e d' out, d.step e = some (d', out) ∧ d' ≠ d := fun hstep hne =>
    ⟨.main true, _, [], daemonStep_iff.mpr ⟨hend, .main hstep⟩, fun heq => hne (congrArg _ heq)⟩
  cases hplace : d.main with
  | launching i =>
    cases hth : d.threads[i]? with
    | none => exact hgoes (.allLaunched hplace hth) (by simp [hplace])
    | some th =>
      by_cases htype : th.root.type = .periodic
      · exact hgoes (.launched hplace hth htype) (by simp [hplace])
      · exact hgoes (.notLaunched hplace hth (absurd · htype)) (by simp [hplace])
  | watching => exact absurd (.inl hplace) hmain
  | joining i => exact absurd (.inr ⟨i, hplace⟩) hmain
  | cleanup success => exact hgoes (.frees hplace) (by simp [hplace])
  | freed success => exact hgoes (.exits hplace) (by simp [hplace])
  | exited success => exact absurd hplace (hend success)

theorem daemonStep_keeps (trees : List KbTree) : ∀ s e s' out, Ordered trees s ∧ s.endflag ≠ 0 →
    s.step e = some (s', out) → Ordered trees s' ∧ s'.endflag ≠ 0 := by
  intro s e s' out hs hstep
  refine ⟨hs.1.step hstep, ?_⟩
  cases (daemonStep_iff.mp hstep).2 with
  | signal n => exact sigh_ne_zero n hs.2
  | main hmain => exact hmain.endflag ▸ hs.2
  | thread => exact hs.2

/-- After the signal a run changes something only so many times. -/
theorem DaemonRun.changes_le (h : DaemonRun trees es d out) (hflag : d.endflag ≠ 0)
    (es' : List DaemonEvent) : changes Daemon.step d es' ≤ 8 * trees.length + 5 := by
  have hlength : d.threads.length = trees.length := by
    rw [← h.ordered.roots, List.length_map]
  have hle := changes_le_rank (daemonStep_keeps trees)
    (fun s e s' out hs hstep => daemonStep_rank_lt hstep hs.1 hs.2) ⟨h.ordered, hflag⟩ es'
  exact hle.trans (hlength ▸ d.rank_le)

/-- After the signal a daemon that has not exited can take a step that changes something. -/
theorem DaemonRun.goesOn (h : DaemonRun trees es d out) (haccepted : ∀ root ∈ trees, Accepted root)
    (hflag : d.endflag ≠ 0) (hend : ∀ success, d.main ≠ .exited success) :
    ∃ e d' new, d.step e = some (d', new) ∧ d' ≠ d := by
  by_cases hmain : d.Waiting
  · have hcan : ∀ th ∈ d.threads, th.CanComplete := by
      intro th hth
      refine ⟨h.notRefused haccepted th hth, fun _ => ⟨true, 0, haccepted _ ?_ _ _⟩⟩
      rw [← h.ordered.roots]
      exact List.mem_map_of_mem hth
    have hwaits : Waits trees (fun _ => True) d := ⟨h.ordered, hflag,
      hmain.elim .inl fun hjoining => .inr (.inl hjoining), hcan, fun _ _ _ _ => trivial⟩
    obtain ⟨e, d', new, hstep, -, hlt⟩ := hwaits.goesOn fun hfreed => by
      rcases hmain with hmain | ⟨i, hmain⟩ <;> simp [hmain] at hfreed
    refine ⟨e, d', new, hstep, ?_⟩
    rintro rfl
    exact absurd hlt (lt_irrefl _)
  · exact Daemon.mainGoesOn hmain hend

theorem DaemonRun.exitsOrGoesOn (h : DaemonRun trees es d out)
    (haccepted : ∀ root ∈ trees, Accepted root) (hflag : d.endflag ≠ 0) {es' : List DaemonEvent}
    {d' : Daemon} {new : List NodeRun} (hrun : Run Daemon.step d es' d' new) :
    (∃ success, d'.main = .exited success) ∨
      ∃ e d'' new', d'.step e = some (d'', new') ∧ d'' ≠ d' := by
  by_cases hend : ∃ success, d'.main = .exited success
  · exact .inl hend
  · push Not at hend
    have hall : DaemonRun trees (es ++ es') d' (out ++ new) := h.append hrun
    have hflag' := (hrun.preserves (daemonStep_keeps trees) ⟨h.ordered, hflag⟩).2
    exact .inr (hall.goesOn haccepted hflag' hend)

/-- After the signal the daemon exits in a bounded number of steps, in whatever order they are taken,
if its threads get to their loops. -/
theorem daemonRun_shutsDown (haccepted : ∀ root ∈ trees, Accepted root)
    (h : DaemonRun trees es d out) (hflag : d.endflag ≠ 0) :
    ShutsDown (8 * trees.length + 5) d :=
  ⟨h.changes_le hflag, fun _ _ _ hrun => h.exitsOrGoesOn haccepted hflag hrun⟩

/-- Whether a thread gets to its loop does not depend on the time. -/
theorem thPeriodicStart_isSome (nul : Bool) (root : KbTree) (now now' : ℕ) :
    (thPeriodicStart nul root now).isSome = (thPeriodicStart nul root now').isSome := by
  unfold thPeriodicStart
  split
  · rfl
  · dsimp only
    split
    · rfl
    · split
      · rfl
      · simp only [Option.isSome_map]

theorem heartbeat_accepted : Accepted heartbeat := by
  intro nul now
  rw [← Option.isSome_iff_ne_none, thPeriodicStart_isSome nul heartbeat now 0]
  cases nul <;> decide +kernel

theorem stopped_shutsDown : ∃ d out, DaemonRun [heartbeat] (awake ++ [.signal sigint]) d out ∧
    ShutsDown 13 d := by
  obtain ⟨d, out, hrun, hflag⟩ := exists_run Daemon.step (startDaemon [heartbeat])
    (awake ++ [.signal sigint]) (fun r => r.1.endflag ≠ 0) (by decide +kernel)
  exact ⟨d, out, hrun, daemonRun_shutsDown (by simpa using heartbeat_accepted) hrun
    (of_decide_eq_true hflag)⟩

end Kubeka
