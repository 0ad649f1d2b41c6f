import Kubeka.Library.Lists
import Kubeka.Model.Daemon

/-!
# Steps of the daemon

What a step of `main` or of a thread can be, and what every step keeps: the
threads are started in order, `completed` says where a thread stands, and
`main` gets past its two waits only after the signal and after every thread has
set `completed`.
-/

namespace Kubeka

open Transition

variable {trees : List KbTree} {d d' : Daemon} {out : List NodeRun}

/-! ### What a step can be -/

/-- The steps of `main`. -/
inductive MainStep (d : Daemon) : Bool → Daemon → Prop
  | launched {i : ℕ} {th : KbbiThread} : d.main = .launching i → d.threads[i]? = some th →
      th.root.type = .periodic → MainStep d true { d with
        threads := d.threads.set i
          { th with retcode := exitFailure, completed := false, place := .entered }
        main := .launching (i + 1) }
  | notLaunched {i : ℕ} {th : KbbiThread} {created : Bool} : d.main = .launching i →
      d.threads[i]? = some th → (th.root.type = .periodic → created = false) →
      MainStep d created { d with
        threads := d.threads.set i { th with retcode := exitFailure, completed := false }
        main := .cleanup false }
  | allLaunched {i : ℕ} {created : Bool} : d.main = .launching i → d.threads[i]? = none →
      MainStep d created { d with main := .watching }
  | sleeps {created : Bool} : d.main = .watching → d.endflag = 0 → MainStep d created d
  | interrupted {created : Bool} : d.main = .watching → d.endflag ≠ 0 →
      MainStep d created { d with main := .joining 0 }
  | waits {i : ℕ} {th : KbbiThread} {created : Bool} : d.main = .joining i →
      d.threads[i]? = some th → th.completed = false → MainStep d created d
  | joined {i : ℕ} {th : KbbiThread} {created : Bool} : d.main = .joining i →
      d.threads[i]? = some th → th.completed = true →
      MainStep d created { d with main := .joining (i + 1) }
  | allJoined {i : ℕ} {created : Bool} : d.main = .joining i → d.threads[i]? = none →
      MainStep d created { d with main := .cleanup true }
  | frees {success created : Bool} : d.main = .cleanup success →
      MainStep d created { d with main := .freed success }
  | exits {success created : Bool} : d.main = .freed success →
      MainStep d created { d with main := .exited success }

theorem kbbiThreadLaunch_periodic {th : KbbiThread} (h : th.root.type = .periodic) :
    kbbiThreadLaunch true th =
      ({ th with retcode := exitFailure, completed := false, place := .entered }, true) := by
  simp [kbbiThreadLaunch, h]

theorem kbbiThreadLaunch_refused {created : Bool} {th : KbbiThread}
    (h : th.root.type = .periodic → created = false) :
    kbbiThreadLaunch created th =
      ({ th with retcode := exitFailure, completed := false }, false) := by
  cases htype : th.root.type with
  | periodic => simp [kbbiThreadLaunch, htype, h htype]
  | job => simp [kbbiThreadLaunch, htype]
  | entrypoint => simp [kbbiThreadLaunch, htype]

/-- A step of `main` that leaves it where it waits. -/
theorem Daemon.with_main {place : MainPlace} (h : d.main = place) :
    { d with main := place } = d := by
  subst h
  rfl

theorem mainStep_iff {created : Bool} : d.mainStep created = some d' ↔ MainStep d created d' := by
  constructor
  · intro h
    unfold Daemon.mainStep at h
    split at h
    · next i hmain =>
      cases hth : d.threads[i]? with
      | none =>
        rw [hth] at h
        obtain rfl := Option.some.inj h
        exact .allLaunched hmain hth
      | some th =>
        simp only [hth] at h
        by_cases hgood : th.root.type = .periodic ∧ created = true
        · obtain ⟨htype, rfl⟩ := hgood
          rw [kbbiThreadLaunch_periodic htype] at h
          obtain rfl := Option.some.inj h
          exact .launched hmain hth htype
        · have hbad : th.root.type = .periodic → created = false := by
            intro htype
            simpa [htype] using hgood
          rw [kbbiThreadLaunch_refused hbad] at h
          obtain rfl := Option.some.inj h
          exact .notLaunched hmain hth hbad
    · next hmain =>
      by_cases hflag : d.endflag = 0
      · rw [if_pos hflag, Daemon.with_main hmain] at h
        obtain rfl := Option.some.inj h
        exact .sleeps hmain hflag
      · rw [if_neg hflag] at h
        obtain rfl := Option.some.inj h
        exact .interrupted hmain hflag
    · next i hmain =>
      cases hth : d.threads[i]? with
      | none =>
        rw [hth] at h
        obtain rfl := Option.some.inj h
        exact .allJoined hmain hth
      | some th =>
        simp only [hth] at h
        by_cases hdone : th.completed = true
        · rw [if_pos hdone] at h
          obtain rfl := Option.some.inj h
          exact .joined hmain hth hdone
        · rw [if_neg hdone, Daemon.with_main hmain] at h
          obtain rfl := Option.some.inj h
          exact .waits hmain hth (by simpa using hdone)
    · next success hmain =>
      obtain rfl := Option.some.inj h
      exact .frees hmain
    · next success hmain =>
      obtain rfl := Option.some.inj h
      exact .exits hmain
    · exact absurd h (by simp)
  · intro h
    cases h with
    | launched hmain hth htype =>
      simp [Daemon.mainStep, hmain, hth, kbbiThreadLaunch_periodic htype]
    | notLaunched hmain hth hbad =>
      simp [Daemon.mainStep, hmain, hth, kbbiThreadLaunch_refused hbad]
    | allLaunched hmain hth => simp [Daemon.mainStep, hmain, hth]
    | sleeps hmain hflag =>
      simp only [Daemon.mainStep, hmain, if_pos hflag, Daemon.with_main hmain]
    | interrupted hmain hflag => simp only [Daemon.mainStep, hmain, if_neg hflag]
    | waits hmain hth hdone =>
      simp only [Daemon.mainStep, hmain, hth, hdone, Bool.false_eq_true, if_false,
        Daemon.with_main hmain]
    | joined hmain hth hdone => simp [Daemon.mainStep, hmain, hth, hdone]
    | allJoined hmain hth => simp [Daemon.mainStep, hmain, hth]
    | frees hmain => simp [Daemon.mainStep, hmain]
    | exits hmain => simp [Daemon.mainStep, hmain]

theorem MainStep.endflag {created : Bool} (h : MainStep d created d') : d'.endflag = d.endflag := by
  cases h <;> rfl

/-- The steps of a thread. -/
inductive ThreadStep (endflag : CInt) (r : Reads) (th : KbbiThread) :
    KbbiThread → Option (KbTree × Ran) → Prop
  | refuses : th.place = .entered → thPeriodicStart r.nul th.root r.now = none →
      ThreadStep endflag r th { th with place := .refused } none
  | starts {period : Kbperiod} {s : Periodic} : th.place = .entered →
      thPeriodicStart r.nul th.root r.now = some (period, s) →
      ThreadStep endflag r th { th with place := .testing period s } none
  | leaves {period : Kbperiod} {s : Periodic} : th.place = .testing period s →
      endflag ≠ 0 ∨ s.counter = 0 → ThreadStep endflag r th { th with place := .leaving s.ret } none
  | enters {period : Kbperiod} {s : Periodic} : th.place = .testing period s → endflag = 0 →
      s.counter ≠ 0 → ThreadStep endflag r th { th with place := .body period s } none
  | iterates {period : Kbperiod} {s : Periodic} : th.place = .body period s →
      (periodicStep period s (r.tick 0)).1.done = false →
      ThreadStep endflag r th
        { th with place := .testing period (periodicStep period s (r.tick 0)).1 }
        (periodicStep period s (r.tick 0)).2
  | breaks {period : Kbperiod} {s : Periodic} : th.place = .body period s →
      (periodicStep period s (r.tick 0)).1.done = true →
      ThreadStep endflag r th { th with place := .leaving (periodicStep period s (r.tick 0)).1.ret }
        (periodicStep period s (r.tick 0)).2
  | completes {ret : CInt} : th.place = .leaving ret →
      ThreadStep endflag r th { th with completed := true, place := .completed ret } none
  | returns {ret : CInt} : th.place = .completed ret →
      ThreadStep endflag r th { th with retcode := ret, place := .returned } none

theorem threadStep_iff {endflag : CInt} {r : Reads} {th th' : KbbiThread}
    {run : Option (KbTree × Ran)} :
    th.step endflag r = some (th', run) ↔ ThreadStep endflag r th th' run := by
  constructor
  · intro h
    unfold KbbiThread.step at h
    split at h
    · simp at h
    · simp at h
    · simp at h
    · next hplace =>
      cases hstart : thPeriodicStart r.nul th.root r.now with
      | none =>
        rw [hstart] at h
        obtain ⟨rfl, rfl⟩ := Prod.mk.inj (Option.some.inj h)
        exact .refuses hplace hstart
      | some start =>
        rw [hstart] at h
        obtain ⟨rfl, rfl⟩ := Prod.mk.inj (Option.some.inj h)
        exact .starts hplace hstart
    · next period s hplace =>
      by_cases hends : endflag ≠ 0 ∨ s.counter = 0
      · rw [if_pos hends] at h
        obtain ⟨rfl, rfl⟩ := Prod.mk.inj (Option.some.inj h)
        exact .leaves hplace hends
      · rw [if_neg hends] at h
        obtain ⟨rfl, rfl⟩ := Prod.mk.inj (Option.some.inj h)
        push Not at hends
        exact .enters hplace hends.1 hends.2
    · next period s hplace =>
      simp only [Option.some.injEq, Prod.mk.injEq] at h
      obtain ⟨rfl, rfl⟩ := h
      by_cases hdone : (periodicStep period s (r.tick 0)).1.done = true
      · rw [if_pos hdone]
        exact .breaks hplace hdone
      · rw [if_neg hdone]
        exact .iterates hplace (by simpa using hdone)
    · next ret hplace =>
      obtain ⟨rfl, rfl⟩ := Prod.mk.inj (Option.some.inj h)
      exact .completes hplace
    · next ret hplace =>
      obtain ⟨rfl, rfl⟩ := Prod.mk.inj (Option.some.inj h)
      exact .returns hplace
  · intro h
    cases h with
    | refuses hplace hstart => simp [KbbiThread.step, hplace, hstart]
    | starts hplace hstart => simp [KbbiThread.step, hplace, hstart]
    | leaves hplace hends => simp only [KbbiThread.step, hplace, if_pos hends]
    | enters hplace hflag hcounter => simp [KbbiThread.step, hplace, hflag, hcounter]
    | iterates hplace hdone =>
      simp only [KbbiThread.step, hplace, hdone, Bool.false_eq_true, if_false]
    | breaks hplace hdone => simp only [KbbiThread.step, hplace, hdone, if_true]
    | completes hplace => simp [KbbiThread.step, hplace]
    | returns hplace => simp [KbbiThread.step, hplace]

/-- The steps of the daemon. -/
inductive DaemonStep (d : Daemon) : DaemonEvent → Daemon → List NodeRun → Prop
  | signal (n : ℕ) : DaemonStep d (.signal n) { d with endflag := sigh d.endflag n } []
  | main {created : Bool} {d' : Daemon} : MainStep d created d' →
      DaemonStep d (.main created) d' []
  | thread {i : ℕ} {r : Reads} {th th' : KbbiThread} {run : Option (KbTree × Ran)} :
      d.threads[i]? = some th → ThreadStep d.endflag r th th' run →
      DaemonStep d (.thread i r) { d with threads := d.threads.set i th' }
        (run.map fun run => (i, run)).toList

theorem daemonStep_iff {e : DaemonEvent} : d.step e = some (d', out) ↔
    (∀ success, d.main ≠ .exited success) ∧ DaemonStep d e d' out := by
  unfold Daemon.step
  split
  · next success hmain => simp [hmain]
  · next hmain =>
    rw [and_iff_right hmain]
    constructor
    · intro h
      split at h
      · obtain ⟨rfl, rfl⟩ := Prod.mk.inj (Option.some.inj h)
        exact .signal _
      · obtain ⟨d₁, hstep, heq⟩ := Option.map_eq_some_iff.mp h
        obtain ⟨rfl, rfl⟩ := Prod.mk.inj heq
        exact .main (mainStep_iff.mp hstep)
      · next i r =>
        cases hth : d.threads[i]? with
        | none => simp [hth] at h
        | some th =>
          rw [hth] at h
          obtain ⟨th', hstep, heq⟩ := Option.map_eq_some_iff.mp h
          obtain ⟨rfl, rfl⟩ := Prod.mk.inj heq
          exact .thread hth (threadStep_iff.mp hstep)
    · intro h
      cases h with
      | signal n => rfl
      | main hstep => simp [mainStep_iff.mpr hstep]
      | thread hth hstep => simp [hth, threadStep_iff.mpr hstep]

/-! ### What every step keeps -/

/-- The thread has set `completed`, whatever it still does. -/
def ThreadPlace.HasCompleted : ThreadPlace → Prop
  | .completed _ | .returned => True
  | _ => False

/-- The threads below `i` were created, the others were not. -/
def Daemon.Launched (d : Daemon) (i : ℕ) : Prop :=
  ∀ j th, d.threads[j]? = some th → (th.place = .idle ↔ i ≤ j)

/-- What `main` can rely on where it stands. -/
def Daemon.MainKnows (d : Daemon) : MainPlace → Prop
  | .launching i => d.Launched i
  | .watching => ∀ th ∈ d.threads, th.place ≠ .idle
  | .joining i => d.endflag ≠ 0 ∧ (∀ th ∈ d.threads, th.place ≠ .idle) ∧
      ∀ j < i, ∀ th, d.threads[j]? = some th → th.completed = true
  | .cleanup true | .freed true | .exited true =>
      d.endflag ≠ 0 ∧ ∀ th ∈ d.threads, th.completed = true
  | .cleanup false | .freed false | .exited false =>
      ∃ i th, d.threads[i]? = some th ∧ d.Launched i

structure Ordered (trees : List KbTree) (d : Daemon) : Prop where
  flag : d.endflag = 0 ∨ d.endflag = 1
  roots : d.threads.map KbbiThread.root = trees
  completed : ∀ th ∈ d.threads, th.completed = true ↔ th.place.HasCompleted
  main : d.MainKnows d.main

theorem ordered_start (trees : List KbTree) : Ordered trees (startDaemon trees) where
  flag := .inl rfl
  roots := by simp [startDaemon, Function.comp_def]
  completed := by simp [startDaemon, ThreadPlace.HasCompleted]
  main := by
    intro j th hth
    obtain ⟨root, -, rfl⟩ := List.mem_map.mp (List.mem_of_getElem? hth)
    simp

@[simp] theorem sigh_ne_zero {endflag : CInt} (n : ℕ) (h : endflag ≠ 0) : sigh endflag n ≠ 0 := by
  unfold sigh
  split_ifs
  · decide
  · exact h

/-- What a step of a thread keeps of it. -/
structure ThreadKept (th th' : KbbiThread) : Prop where
  root : th'.root = th.root
  created : th.place ≠ .idle ∧ th'.place ≠ .idle
  completed : (th.completed = true ↔ th.place.HasCompleted) →
    (th'.completed = true ↔ th'.place.HasCompleted)
  stays : th.completed = true → th'.completed = true

theorem ThreadStep.kept {endflag : CInt} {r : Reads} {th th' : KbbiThread}
    {run : Option (KbTree × Ran)} (h : ThreadStep endflag r th th' run) : ThreadKept th th' := by
  cases h with
  | refuses hplace | starts hplace | leaves hplace | enters hplace | iterates hplace
  | breaks hplace | completes hplace | returns hplace =>
    exact ⟨rfl, by simp [hplace], by simp [hplace, ThreadPlace.HasCompleted], by simp⟩

theorem Ordered.getElem?_root (h : Ordered trees d) {i : ℕ} {root : KbTree}
    (hroot : trees[i]? = some root) : ∃ th, d.threads[i]? = some th ∧ th.root = root := by
  rw [← h.roots, List.getElem?_map] at hroot
  exact Option.map_eq_some_iff.mp hroot

theorem Ordered.set_roots (h : Ordered trees d) {i : ℕ} {th th' : KbbiThread}
    (hth : d.threads[i]? = some th) (hroot : th'.root = th.root) :
    (d.threads.set i th').map KbbiThread.root = trees :=
  (Lists.map_set_of_eq _ hth hroot).trans h.roots

theorem Ordered.set_thread (h : Ordered trees d) {i : ℕ} {th th' : KbbiThread}
    (hth : d.threads[i]? = some th) (hkept : ThreadKept th th') :
    Ordered trees { d with threads := d.threads.set i th' } := by
  have hmem := List.mem_of_getElem? hth
  have hcreated : (∀ th ∈ d.threads, th.place ≠ .idle) →
      ∀ u ∈ d.threads.set i th', u.place ≠ .idle := fun h =>
    Lists.forall_mem_set h hkept.created.2
  have hjoined : (∀ th ∈ d.threads, th.completed = true) →
      ∀ u ∈ d.threads.set i th', u.completed = true := fun h =>
    Lists.forall_mem_set h (hkept.stays (h th hmem))
  have hlaunched : ∀ k, d.Launched k → ∀ j u, (d.threads.set i th')[j]? = some u →
      (u.place = .idle ↔ k ≤ j) := by
    intro k hk j u hu
    rcases Lists.getElem?_set_cases hu with ⟨rfl, rfl⟩ | ⟨-, hu⟩
    · have hiff := hk j th hth
      simp only [hkept.created.1, hkept.created.2, false_iff] at hiff ⊢
      exact hiff
    · exact hk j u hu
  refine ⟨h.flag, ?_, ?_, ?_⟩
  · exact h.set_roots hth hkept.root
  · exact Lists.forall_mem_set h.completed (hkept.completed (h.completed th hmem))
  · have hmain := h.main
    generalize d.main = place at hmain ⊢
    cases place with
    | launching k => exact hlaunched k hmain
    | watching => exact hcreated hmain
    | joining k =>
      refine ⟨hmain.1, hcreated hmain.2.1, fun j hj u hu => ?_⟩
      rcases Lists.getElem?_set_cases hu with ⟨rfl, rfl⟩ | ⟨-, hu⟩
      · exact hkept.stays (hmain.2.2 j hj th hth)
      · exact hmain.2.2 j hj u hu
    | cleanup success | freed success | exited success =>
      cases success with
      | true => exact ⟨hmain.1, hjoined hmain.2⟩
      | false =>
        obtain ⟨k, u, hu, hk⟩ := hmain
        by_cases hki : k = i
        · subst hki
          obtain rfl := Option.some.inj (hth.symm.trans hu)
          exact ⟨k, th', List.getElem?_set_self (List.getElem?_eq_some_iff.mp hth).1,
            hlaunched k hk⟩
        · exact ⟨k, u, by rw [List.getElem?_set_ne (Ne.symm hki)]; exact hu, hlaunched k hk⟩

theorem Ordered.signal (h : Ordered trees d) (n : ℕ) :
    Ordered trees { d with endflag := sigh d.endflag n } := by
  refine ⟨?_, h.roots, h.completed, ?_⟩
  · unfold sigh
    split_ifs
    · exact .inr rfl
    · exact h.flag
  have hmain := h.main
  generalize d.main = place at hmain ⊢
  cases place with
  | launching k => exact hmain
  | watching => exact hmain
  | joining k => exact ⟨sigh_ne_zero n hmain.1, hmain.2⟩
  | cleanup success | freed success | exited success =>
    cases success with
    | true => exact ⟨sigh_ne_zero n hmain.1, hmain.2⟩
    | false => exact hmain

/-- The thread that is launched next was not created yet. -/
theorem Ordered.idle_of_launching (h : Ordered trees d) {i : ℕ} {th : KbbiThread}
    (hmain : d.main = .launching i) (hth : d.threads[i]? = some th) : th.place = .idle := by
  have hknows := h.main
  rw [hmain] at hknows
  exact (hknows i th hth).mpr le_rfl

theorem Ordered.mainStep {created : Bool} (h : Ordered trees d) (hstep : MainStep d created d') :
    Ordered trees d' := by
  have hknows := h.main
  cases hstep with
  | @launched i th hmain hth htype =>
    have hidle := h.idle_of_launching hmain hth
    rw [hmain] at hknows
    refine ⟨h.flag, h.set_roots hth rfl, Lists.forall_mem_set h.completed
      (by simp [ThreadPlace.HasCompleted]), fun j u hu => ?_⟩
    rcases Lists.getElem?_set_cases hu with ⟨rfl, rfl⟩ | ⟨hne, hu⟩
    · simp
    · rw [hknows j u hu]
      omega
  | @notLaunched i th _ hmain hth hbad =>
    have hidle := h.idle_of_launching hmain hth
    rw [hmain] at hknows
    refine ⟨h.flag, h.set_roots hth rfl, Lists.forall_mem_set h.completed
      (by simp [hidle, ThreadPlace.HasCompleted]), i, _,
      List.getElem?_set_self (List.getElem?_eq_some_iff.mp hth).1, fun j u hu => ?_⟩
    rcases Lists.getElem?_set_cases hu with ⟨rfl, rfl⟩ | ⟨-, hu⟩
    · simpa using hidle
    · exact hknows j u hu
  | @allLaunched i _ hmain hth =>
    rw [hmain] at hknows
    refine ⟨h.flag, h.roots, h.completed, fun th (hmem : th ∈ d.threads) hidle => ?_⟩
    obtain ⟨j, hj⟩ := List.mem_iff_getElem?.mp hmem
    have hle := (hknows j th hj).mp hidle
    have hlt := (List.getElem?_eq_some_iff.mp hj).1
    rw [List.getElem?_eq_none_iff] at hth
    omega
  | sleeps hmain hflag => exact h
  | interrupted hmain hflag =>
    rw [hmain] at hknows
    exact ⟨h.flag, h.roots, h.completed, hflag, hknows, fun j hj => absurd hj (Nat.not_lt_zero j)⟩
  | waits hmain hth hdone => exact h
  | @joined i th _ hmain hth hdone =>
    rw [hmain] at hknows
    refine ⟨h.flag, h.roots, h.completed, hknows.1, hknows.2.1, fun j hj u hu => ?_⟩
    rcases Nat.lt_succ_iff_lt_or_eq.mp hj with hlt | rfl
    · exact hknows.2.2 j hlt u hu
    · obtain rfl := Option.some.inj (hth.symm.trans hu)
      exact hdone
  | @allJoined i _ hmain hth =>
    rw [hmain] at hknows
    refine ⟨h.flag, h.roots, h.completed, hknows.1, fun th (hmem : th ∈ d.threads) => ?_⟩
    obtain ⟨j, hj⟩ := List.mem_iff_getElem?.mp hmem
    have hlt := (List.getElem?_eq_some_iff.mp hj).1
    rw [List.getElem?_eq_none_iff] at hth
    exact hknows.2.2 j (by omega) th hj
  | @frees success _ hmain | @exits success _ hmain =>
    rw [hmain] at hknows
    refine ⟨h.flag, h.roots, h.completed, ?_⟩
    cases success <;> exact hknows

theorem Ordered.step {e : DaemonEvent} (h : Ordered trees d) (hstep : d.step e = some (d', out)) :
    Ordered trees d' := by
  cases (daemonStep_iff.mp hstep).2 with
  | signal n => exact h.signal n
  | main hmain => exact h.mainStep hmain
  | thread hth hthread => exact h.set_thread hth hthread.kept

/-- In whatever order main, the threads and the signal take their steps. -/
theorem DaemonRun.ordered {es : List DaemonEvent} (h : DaemonRun trees es d out) :
    Ordered trees d :=
  h.preserves (fun _ _ _ _ => Ordered.step) (ordered_start trees)

end Kubeka
