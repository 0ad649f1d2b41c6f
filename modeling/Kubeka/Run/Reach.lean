import Kubeka.Run.Status

/-!
# Nodes that some run gets to

Which nodes are run depends on the results of the commands only in that a failing
job keeps the jobs after it from being run. The nodes that can be reached are
therefore those that a run without failures gets to.
-/

namespace Kubeka

/-- A node can run a child: a handler of its signals, or, where there is neither such a handler nor
a command, a job. -/
inductive MayRun (t : KbTree) : Step → KbTree → Prop
  | handler {h i} : kbnodeGetSrcdef t.symtab ≠ none → (h, i) ∈ matching t → MayRun t (.handler i) h
  | job {job i} : kbnodeGetSrcdef t.symtab ≠ none → matching t = [] → commandsOf t.symtab = [] →
      (job, i) ∈ t.jobs.zipIdx → MayRun t (.job i) job

/-- The node `n`, at `q` below `t`, can be run. -/
inductive Reaches : KbTree → Path → KbTree → Prop
  | here {t} : Reaches t [] t
  | child {t s c q n} : MayRun t s c → Reaches c q n → Reaches t (s :: q) n

variable {shell : Shell}

theorem RunsChild.mayRun {p : Path} {t c : KbTree} {s : Step} (h : RunsChild shell p t s c) :
    MayRun t s c := by
  cases h with
  | handler hsrc hm => exact .handler hsrc hm
  | job hsrc hm hc hj _ => exact .job hsrc hm hc hj

theorem MayRun.child? {t c : KbTree} {s : Step} (h : MayRun t s c) : t.child? s = some c := by
  cases h with
  | handler _ hm => exact child?_of_mem_matching hm
  | job _ _ _ hj => exact child?_of_mem_jobs hj

theorem Visited.reaches {p q : Path} {t n : KbTree} (h : Visited shell p t q n) :
    ∃ r, q = p ++ r ∧ Reaches t r n := by
  induction h with
  | here => exact ⟨[], by simp, .here⟩
  | @child p t s c q n hc _ ih =>
    obtain ⟨r, hq, hr⟩ := ih
    exact ⟨s :: r, by simp [hq], .child hc.mayRun hr⟩

/-! ### The run without failures -/

def succeeding : Shell := fun _ _ _ => 0

theorem exitStatus_succeeding {t : KbTree} {up : List Symtab}
    (hsrc : t.Forall (fun _ n => kbnodeGetSrcdef n.symtab ≠ none) up) (p : Path) :
    exitStatus succeeding p t = 0 := by
  refine exitStatus_of_allSucceeded hsrc fun q i cmd rc hmem => ?_
  obtain ⟨_, _, _, _, _, rfl⟩ := command_mem_trace.mp hmem
  rfl

theorem MayRun.runsChild {t c : KbTree} {s : Step} {up : List Symtab} (h : MayRun t s c)
    (hsrc : t.Forall (fun _ n => kbnodeGetSrcdef n.symtab ≠ none) up) (p : Path) :
    RunsChild succeeding p t s c := by
  cases h with
  | handler hs hm => exact .handler hs hm
  | job hs hm hc hj =>
    refine .job hs hm hc hj fun k hk _ => ?_
    exact exitStatus_succeeding (forall_child hsrc (child?_of_mem_jobs hk)) _

theorem Reaches.visited {t n : KbTree} {q : Path} {up : List Symtab} (h : Reaches t q n)
    (hsrc : t.Forall (fun _ n => kbnodeGetSrcdef n.symtab ≠ none) up) (p : Path) :
    Visited succeeding p t (p ++ q) n := by
  induction h generalizing up p with
  | here => simpa using Visited.here
  | @child t s c q n hc _ ih =>
    have hrest := ih (forall_child hsrc hc.child?) (p ++ [s])
    rw [List.append_assoc, List.singleton_append] at hrest
    exact .child (hc.runsChild hsrc p) hrest

/-- In a tree with all origins a node can be reached just when some run gets to it. -/
theorem reaches_iff_visited {t n : KbTree} {q : Path}
    (hsrc : t.Forall (fun _ n => kbnodeGetSrcdef n.symtab ≠ none) []) :
    Reaches t q n ↔ ∃ shell, Visited shell [] t q n := by
  constructor
  · intro h
    exact ⟨succeeding, h.visited hsrc []⟩
  · rintro ⟨shell, h⟩
    obtain ⟨r, rfl, hr⟩ := h.reaches
    exact hr

/-- What every node that a run gets to does, in every run. -/
theorem forall_visited_iff {t : KbTree} {P : Path → KbTree → Prop}
    (hsrc : t.Forall (fun _ n => kbnodeGetSrcdef n.symtab ≠ none) []) :
    (∀ shell q n, Visited shell [] t q n → P q n) ↔ ∀ q n, Reaches t q n → P q n := by
  simp only [reaches_iff_visited hsrc]
  exact ⟨fun h q n ⟨shell, hv⟩ => h shell q n hv, fun h shell q n hv => h q n ⟨shell, hv⟩⟩

end Kubeka
