import Kubeka.Daemon.Shutdown

/-!
# What is freed under running threads

`main` launches the threads in the order of the trees and gives up at the first
that it cannot launch, which is that of the first tree that is not periodic if
every thread can be created. It then frees all trees at once, also those that
the threads before it are working on.
-/

namespace Kubeka

open Transition

variable {trees : List KbTree} {d d' : Daemon} {es : List DaemonEvent} {out : List NodeRun}

/-- A thread at this place still reads or writes its tree. -/
def ThreadPlace.UsesTree : ThreadPlace → Prop
  | .entered | .testing _ _ | .body _ _ | .leaving _ => True
  | .idle | .refused | .completed _ | .returned => False

/-- Every thread that `main` asks for is created. -/
def Creates (es : List DaemonEvent) : Prop := ∀ e ∈ es, e ≠ .main false

/-- Where all trees are periodic no launch fails. -/
def Healthy (d : Daemon) : Prop :=
  d.main ≠ .cleanup false ∧ d.main ≠ .freed false ∧ d.main ≠ .exited false

theorem MainStep.healthy (h : MainStep d true d') (hd : Ordered trees d)
    (hall : ∀ root ∈ trees, root.type = .periodic) (hhealthy : Healthy d) : Healthy d' := by
  cases h with
  | launched | allLaunched | interrupted | joined | allJoined => simp [Healthy]
  | notLaunched hplace hth hbad =>
    refine absurd (hbad (hall _ ?_)) (by simp)
    rw [← hd.roots]
    exact List.mem_map_of_mem (List.mem_of_getElem? hth)
  | sleeps | waits => exact hhealthy
  | @frees success _ hmain =>
    cases success with
    | true => simp [Healthy]
    | false => exact absurd hmain hhealthy.1
  | @exits success _ hmain =>
    cases success with
    | true => simp [Healthy]
    | false => exact absurd hmain hhealthy.2.1

theorem DaemonRun.healthy (h : DaemonRun trees es d out) (hcreates : Creates es)
    (hall : ∀ root ∈ trees, root.type = .periodic) : Healthy d := by
  suffices hboth : Ordered trees d ∧ Healthy d from hboth.2
  refine h.preserves_of_forall (P := fun d => Ordered trees d ∧ Healthy d) hcreates
    (fun d e d' out he hd hstep => ⟨hd.1.step hstep, ?_⟩)
    ⟨ordered_start trees, by simp [Healthy, startDaemon]⟩
  cases (daemonStep_iff.mp hstep).2 with
  | signal n => exact hd.2
  | @main created _ hmain =>
    obtain rfl : created = true := by simpa using he
    exact hmain.healthy hd.1 hall hd.2
  | thread => exact hd.2

/-- Where the first tree is not periodic no thread is ever created. -/
theorem DaemonRun.idle_of_first (h : DaemonRun trees es d out) {root : KbTree}
    (hfirst : trees[0]? = some root) (htype : root.type ≠ .periodic) :
    ∀ th ∈ d.threads, th.place = .idle := by
  suffices hboth : Ordered trees d ∧ (d.main = .launching 0 ∨ d.main = .cleanup false ∨
      d.main = .freed false ∨ d.main = .exited false) ∧ ∀ th ∈ d.threads, th.place = .idle from
    hboth.2.2
  refine h.preserves (P := fun d => Ordered trees d ∧ (d.main = .launching 0 ∨
      d.main = .cleanup false ∨ d.main = .freed false ∨ d.main = .exited false) ∧
      ∀ th ∈ d.threads, th.place = .idle) (fun d e d' out hd hstep => ⟨hd.1.step hstep, ?_⟩)
    ⟨ordered_start trees, .inl rfl, by simp [startDaemon]⟩
  obtain ⟨hordered, hplaces, hidle⟩ := hd
  cases (daemonStep_iff.mp hstep).2 with
  | signal n => exact ⟨hplaces, hidle⟩
  | main hmain =>
    cases hmain with
    | @launched i th hplace hth hperiodic =>
      obtain rfl : i = 0 := by
        rcases hplaces with hmain | hmain | hmain | hmain <;> simp [hmain] at hplace
        exact hplace.symm
      obtain ⟨u, hu, rfl⟩ := hordered.getElem?_root hfirst
      obtain rfl := Option.some.inj (hth.symm.trans hu)
      exact absurd hperiodic htype
    | notLaunched hplace hth =>
      have hold := hidle _ (List.mem_of_getElem? hth)
      exact ⟨.inr (.inl rfl), Lists.forall_mem_set hidle hold⟩
    | @allLaunched i _ hplace hth =>
      obtain rfl : i = 0 := by
        rcases hplaces with hmain | hmain | hmain | hmain <;> simp [hmain] at hplace
        exact hplace.symm
      obtain ⟨u, hu, -⟩ := hordered.getElem?_root hfirst
      simp [hu] at hth
    | sleeps | waits => exact ⟨hplaces, hidle⟩
    | interrupted hplace | joined hplace | allJoined hplace =>
      rcases hplaces with hmain | hmain | hmain | hmain <;> simp [hmain] at hplace
    | frees hplace =>
      rcases hplaces with hmain | hmain | hmain | hmain <;> simp [hmain] at hplace
      subst hplace
      exact ⟨.inr (.inr (.inl rfl)), hidle⟩
    | exits hplace =>
      rcases hplaces with hmain | hmain | hmain | hmain <;> simp [hmain] at hplace
      subst hplace
      exact ⟨.inr (.inr (.inr rfl)), hidle⟩
  | thread hth hthread =>
    exact absurd (hidle _ (List.mem_of_getElem? hth)) hthread.kept.created.1

/-- `main` launches the threads of the first `n` trees before another step is taken. -/
theorem launches (n : ℕ) (h : ∀ i < n, ∃ root, trees[i]? = some root ∧ root.type = .periodic) :
    ∃ d, DaemonRun trees (List.replicate n (.main true)) d [] ∧ d.main = .launching n ∧
      ∀ (i : ℕ) (th : KbbiThread), d.threads[i]? = some th → i < n → th.place = .entered := by
  induction n with
  | zero => exact ⟨startDaemon trees, .nil _, rfl, fun i th _ hi => absurd hi (Nat.not_lt_zero i)⟩
  | succ n ih =>
    obtain ⟨d, hrun, hmain, hentered⟩ := ih fun i hi => h i (Nat.lt_succ_of_lt hi)
    obtain ⟨root, hroot, htype⟩ := h n (Nat.lt_succ_self n)
    obtain ⟨th, hth, rfl⟩ := hrun.ordered.getElem?_root hroot
    have hstep : MainStep d true { d with
        threads := d.threads.set n
          { th with retcode := exitFailure, completed := false, place := .entered }
        main := .launching (n + 1) } := .launched hmain hth htype
    have hall := hrun.append (.single (daemonStep_iff.mpr ⟨by simp [hmain], .main hstep⟩))
    rw [← List.replicate_succ'] at hall
    refine ⟨_, hall, rfl, fun i u hu hi => ?_⟩
    rcases Lists.getElem?_set_cases hu with ⟨rfl, rfl⟩ | ⟨hne, hu⟩
    · rfl
    · exact hentered i u hu (by omega)

/-- The trees are freed under the threads of those in front of the first that is not periodic. -/
theorem frees_used {k : ℕ} {bad : KbTree} (hbad : trees[k]? = some bad)
    (htype : bad.type ≠ .periodic)
    (hbefore : ∀ i < k, ∃ root, trees[i]? = some root ∧ root.type = .periodic) (hpos : 0 < k) :
    ∃ d, DaemonRun trees (List.replicate (k + 2) (.main true)) d [] ∧ d.main = .freed false ∧
      ∃ th ∈ d.threads, th.place.UsesTree := by
  obtain ⟨d, hrun, hmain, hentered⟩ := launches k hbefore
  obtain ⟨th, hth, rfl⟩ := hrun.ordered.getElem?_root hbad
  obtain ⟨root, hroot, -⟩ := hbefore 0 hpos
  obtain ⟨first, hfirst, -⟩ := hrun.ordered.getElem?_root hroot
  have hfails : MainStep d true { d with
      threads := d.threads.set k { th with retcode := exitFailure, completed := false }
      main := .cleanup false } := .notLaunched hmain hth (absurd · htype)
  have hfrees : MainStep { d with
      threads := d.threads.set k { th with retcode := exitFailure, completed := false }
      main := .cleanup false } true { d with
      threads := d.threads.set k { th with retcode := exitFailure, completed := false }
      main := .freed false } := .frees rfl
  have hall : DaemonRun trees (List.replicate k (.main true) ++ List.replicate 2 (.main true)) _ [] :=
    hrun.append (.cons (daemonStep_iff.mpr ⟨by simp [hmain], .main hfails⟩)
      (.single (daemonStep_iff.mpr ⟨by simp, .main hfrees⟩)))
  rw [← List.replicate_add] at hall
  refine ⟨_, hall, rfl, first, ?_, ?_⟩
  · refine List.mem_iff_getElem?.mpr ⟨0, ?_⟩
    rw [List.getElem?_set_ne (Nat.ne_of_gt hpos)]
    exact hfirst
  · rw [hentered 0 first hfirst hpos]
    trivial

/-- The trees of periodic nodes are freed after their threads have completed. -/
theorem DaemonRun.freesUnused (h : DaemonRun trees es d out) (hcreates : Creates es)
    (hall : ∀ root ∈ trees, root.type = .periodic) {success : Bool} (hfreed : d.main = .freed success) :
    ∀ th ∈ d.threads, ¬ th.place.UsesTree := by
  intro th hth huses
  obtain rfl : success = true := by
    cases success with
    | true => rfl
    | false => exact absurd hfreed (h.healthy hcreates hall).2.1
  have hdone := (h.ordered.hasCompleted_of_success (.inr (.inl hfreed))).2 th hth
  rcases ThreadPlace.hasCompleted_iff.mp hdone with ⟨ret, hplace⟩ | hplace
  · rw [hplace] at huses
    exact huses
  · rw [hplace] at huses
    exact huses

/-- As long as every thread can be created, no tree is freed while its thread uses it exactly when
all trees are periodic or the first is not. -/
theorem daemonRun_freesUnused_iff (trees : List KbTree) :
    (∀ es d out, DaemonRun trees es d out → Creates es → ∀ success, d.main = .freed success →
        ∀ th ∈ d.threads, ¬ th.place.UsesTree) ↔
      (∀ root ∈ trees, root.type = .periodic) ∨
        ∃ root, trees[0]? = some root ∧ root.type ≠ .periodic := by
  constructor
  · intro hsafe
    by_contra hneither
    obtain ⟨hall, hfirst⟩ := not_or.mp hneither
    push Not at hall
    obtain ⟨root, hmem, hbad⟩ := hall
    have hexists : ∃ (k : ℕ) (root : KbTree), trees[k]? = some root ∧ root.type ≠ .periodic := by
      obtain ⟨k, hk⟩ := List.mem_iff_getElem?.mp hmem
      exact ⟨k, root, hk, hbad⟩
    -- the first that is not periodic
    classical
    obtain ⟨bad, hbad, htype⟩ := Nat.find_spec hexists
    have hlt := (List.getElem?_eq_some_iff.mp hbad).1
    have hbefore : ∀ i < Nat.find hexists,
        ∃ root, trees[i]? = some root ∧ root.type = .periodic := by
      intro i hi
      refine ⟨trees[i], List.getElem?_eq_getElem _, ?_⟩
      by_contra hno
      exact Nat.find_min hexists hi ⟨_, List.getElem?_eq_getElem _, hno⟩
    have hpos : 0 < Nat.find hexists := by
      rw [Nat.pos_iff_ne_zero]
      intro hzero
      rw [hzero] at hbad
      exact hfirst ⟨bad, hbad, htype⟩
    obtain ⟨d, hrun, hfreed, th, hth, huses⟩ := frees_used hbad htype hbefore hpos
    refine hsafe _ d [] hrun (fun e he => ?_) false hfreed th hth huses
    rw [List.eq_of_mem_replicate he]
    simp
  · rintro (hall | ⟨root, hfirst, htype⟩) es d out hrun hcreates success hfreed th hth huses
    · exact hrun.freesUnused hcreates hall hfreed th hth huses
    · rw [hrun.idle_of_first hfirst htype th hth] at huses
      exact huses

end Kubeka
