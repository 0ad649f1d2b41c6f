import Kubeka.Run.Trace

/-!
# The status of a run and the results of its commands

A failing command makes the node fail that executes it, and a failing job its
parent. Over the handlers the statuses are added, so that failures can cancel;
`HandlersCancel` is this and nothing else.
-/

namespace Kubeka

variable (shell : Shell)

/-- Every command executed has returned 0. -/
def AllSucceeded (trace : List Event) : Prop :=
  ∀ p i cmd rc, .command p i cmd rc ∈ trace → rc = 0

/-- The run of a node that returns 0 gets to a node where the statuses of the handlers add up to 0,
though one of them is not 0. -/
inductive HandlersCancel : Path → KbTree → Prop
  | here {p t} : kbnodeGetSrcdef t.symtab ≠ none → (∃ h ∈ matching t, handlerStatus shell p h ≠ 0) →
      ((matching t).map (handlerStatus shell p)).sum = 0 → HandlersCancel p t
  | handler {p t h} : kbnodeGetSrcdef t.symtab ≠ none → h ∈ matching t →
      (∀ h' ∈ matching t, handlerStatus shell p h' = 0) →
      HandlersCancel (p ++ [.handler h.2]) h.1 → HandlersCancel p t
  | job {p t j} : kbnodeGetSrcdef t.symtab ≠ none → matching t = [] → commandsOf t.symtab = [] →
      j ∈ t.jobs.zipIdx → (∀ j' ∈ t.jobs.zipIdx, jobStatus shell p j' = 0) →
      HandlersCancel (p ++ [.job j.2]) j.1 → HandlersCancel p t

variable {shell}

theorem orAll_eq_zero_iff {results : List CInt} : orAll results = 0 ↔ ∀ r ∈ results, r = 0 := by
  induction results with
  | nil => simp [orAll]
  | cons r rs ih =>
    have hcons : orAll (r :: rs) = 0 ↔ r = 0 ∧ orAll rs = 0 := BitVec.or_eq_zero_iff
    rw [hcons, ih, List.forall_mem_cons]

theorem sum_eq_zero_of_forall {α : Type} {l : List α} {f : α → CInt} (h : ∀ x ∈ l, f x = 0) :
    (l.map f).sum = 0 := by
  induction l with
  | nil => rfl
  | cons x xs ih =>
    obtain ⟨hx, hxs⟩ := List.forall_mem_cons.mp h
    rw [List.map_cons, List.sum_cons, hx, ih hxs]
    rfl

theorem AllSucceeded.child {p : Path} {t c : KbTree} {s : Step}
    (h : AllSucceeded (kbbiRun shell p t).trace) (hc : RunsChild shell p t s c) :
    AllSucceeded (kbbiRun shell (p ++ [s]) c).trace :=
  fun q i cmd rc hmem => h q i cmd rc ((Visited.child hc .here).subset hmem)

/-- Only the commands of a node and the children it runs execute commands. -/
theorem allSucceeded_of {p : Path} {t : KbTree}
    (hcommands : ∀ c ∈ commandsOf t.symtab, matching t = [] → shell p kbnodeKeyExec c.2 = 0)
    (hchildren : ∀ s c, RunsChild shell p t s c →
      AllSucceeded (kbbiRun shell (p ++ [s]) c).trace) :
    AllSucceeded (kbbiRun shell p t).trace := by
  intro q i cmd rc hmem
  obtain ⟨n, hn, hsrc, hm, hc, rfl⟩ := command_mem_trace.mp hmem
  cases hn with
  | here => exact hcommands _ hc hm
  | child hs hn => exact hchildren _ _ hs _ _ _ _ (command_mem_trace.mpr ⟨n, hn, hsrc, hm, hc, rfl⟩)

theorem forall_child {P : List Symtab → KbTree → Prop} {up : List Symtab} {t c : KbTree} {s : Step}
    (h : t.Forall P up) (hc : t.child? s = some c) : c.Forall P (t.symtab :: up) :=
  fun r up' n hn => h (s :: r) up' n (by rw [KbTree.at?_cons, hc]; exact hn)

/-- A node whose commands have all returned 0 returns 0. -/
theorem exitStatus_of_allSucceeded {p : Path} {t : KbTree} {up : List Symtab}
    (hsrc : t.Forall (fun _ n => kbnodeGetSrcdef n.symtab ≠ none) up)
    (h : AllSucceeded (kbbiRun shell p t).trace) : exitStatus shell p t = 0 := by
  induction p, t using run_induction shell generalizing up with
  | node p t ih =>
    have hchild : ∀ s c, RunsChild shell p t s c → exitStatus shell (p ++ [s]) c = 0 :=
      fun s c hc => ih s c hc (forall_child hsrc hc.child?) (h.child hc)
    obtain ⟨mid, hran, -⟩ := kbbiRun_spec shell p t
    generalize hret : exitStatus shell p t = ret at hran
    cases hran with
    | noSrcdef hnone => exact absurd hnone (hsrc [] up t rfl)
    | handlers hs hm => exact sum_eq_zero_of_forall fun h hmem => hchild _ _ (.handler hs hmem)
    | commands hs hm hc =>
      refine orAll_eq_zero_iff.mpr fun r hr => ?_
      obtain ⟨c, hmem, rfl⟩ := List.mem_map.mp hr
      exact h p c.2 c.1 _ (command_mem_trace.mpr ⟨t, .here, hs, hm, hmem, rfl⟩)
    | jobs | nothing => rfl
    | @jobFailed pre job post hs hm hc hjobs hzero hbad =>
      refine absurd (hchild _ _ (.job hs hm hc ?_ ?_)) hbad
      · simp [hjobs, List.zipIdx_append]
      · exact fun k hk hlt => hzero k (mem_zipIdx_left hjobs hk hlt)

theorem exitStatus_of_handlers {p : Path} {t : KbTree} (hs : kbnodeGetSrcdef t.symtab ≠ none)
    (hm : matching t ≠ []) :
    exitStatus shell p t = ((matching t).map (handlerStatus shell p)).sum := by
  rw [exitStatus_of_srcdef shell p hs, if_pos hm]

theorem exitStatus_of_commands {p : Path} {t : KbTree} (hs : kbnodeGetSrcdef t.symtab ≠ none)
    (hm : matching t = []) (hc : commandsOf t.symtab ≠ []) :
    exitStatus shell p t = orAll ((commandsOf t.symtab).map fun c => shell p kbnodeKeyExec c.2) := by
  rw [exitStatus_of_srcdef shell p hs, if_neg (not_not.mpr hm), if_pos hc]

theorem exitStatus_of_jobs {p : Path} {t : KbTree} (hs : kbnodeGetSrcdef t.symtab ≠ none)
    (hm : matching t = []) (hc : commandsOf t.symtab = [])
    (hzero : ∀ j ∈ t.jobs.zipIdx, jobStatus shell p j = 0) : exitStatus shell p t = 0 := by
  rw [exitStatus_of_srcdef shell p hs, if_neg (not_not.mpr hm), if_neg (not_not.mpr hc)]
  exact (jobsStatus_eq shell p 0 t.jobs).1 hzero

/-- Where statuses of handlers cancel, the run returns 0 though a command has failed. -/
theorem HandlersCancel.masks {p : Path} {t : KbTree} {up : List Symtab}
    (hsrc : t.Forall (fun _ n => kbnodeGetSrcdef n.symtab ≠ none) up)
    (h : HandlersCancel shell p t) :
    exitStatus shell p t = 0 ∧ ¬ AllSucceeded (kbbiRun shell p t).trace := by
  induction h generalizing up with
  | @here p t hs hbad hsum =>
    obtain ⟨h, hmem, hne⟩ := hbad
    have hc : RunsChild shell p t (.handler h.2) h.1 := .handler hs hmem
    refine ⟨(exitStatus_of_handlers hs (List.ne_nil_of_mem hmem)).trans hsum, fun hall => ?_⟩
    exact hne (exitStatus_of_allSucceeded (forall_child hsrc hc.child?) (hall.child hc))
  | @handler p t h hs hmem hzero _ ih =>
    have hc : RunsChild shell p t (.handler h.2) h.1 := .handler hs hmem
    refine ⟨?_, fun hall => (ih (forall_child hsrc hc.child?)).2 (hall.child hc)⟩
    rw [exitStatus_of_handlers hs (List.ne_nil_of_mem hmem)]
    exact sum_eq_zero_of_forall hzero
  | @job p t j hs hm hcmd hmem hzero _ ih =>
    have hc : RunsChild shell p t (.job j.2) j.1 :=
      .job hs hm hcmd hmem fun k hk _ => hzero k hk
    exact ⟨exitStatus_of_jobs hs hm hcmd hzero,
      fun hall => (ih (forall_child hsrc hc.child?)).2 (hall.child hc)⟩

/-- A run that returns 0 though a command has failed gets to handlers whose statuses cancel. -/
theorem HandlersCancel.of_masked {p : Path} {t : KbTree} (hret : exitStatus shell p t = 0)
    (h : ¬ AllSucceeded (kbbiRun shell p t).trace) : HandlersCancel shell p t := by
  induction p, t using run_induction shell with
  | node p t ih =>
    obtain ⟨mid, hran, -⟩ := kbbiRun_spec shell p t
    have hchild : (∀ c ∈ commandsOf t.symtab, matching t = [] → shell p kbnodeKeyExec c.2 = 0) →
        ∃ s c, RunsChild shell p t s c ∧ ¬ AllSucceeded (kbbiRun shell (p ++ [s]) c).trace := by
      intro hcommands
      by_contra hno
      exact h (allSucceeded_of hcommands fun s c hc => by_contra fun hbad => hno ⟨s, c, hc, hbad⟩)
    rw [hret] at hran
    generalize hzero : (0 : CInt) = ret at hran
    cases hran with
    | noSrcdef => simp [exitFailure] at hzero
    | handlers hs hm =>
      by_cases hall : ∀ h ∈ matching t, handlerStatus shell p h = 0
      · obtain ⟨s, c, hc, hbad⟩ := hchild fun _ _ hnone => absurd hnone hm
        cases hc with
        | @handler _ i _ hmem =>
          exact .handler hs hmem hall (ih _ _ (.handler hs hmem) (hall _ hmem) hbad)
        | job _ hnone => exact absurd hnone hm
      · simp only [not_forall] at hall
        obtain ⟨h, hmem, hne⟩ := hall
        exact .here hs ⟨h, hmem, hne⟩ hzero.symm
    | commands hs hm hc =>
      obtain ⟨s, c, hrun, -⟩ := hchild fun c hc _ =>
        orAll_eq_zero_iff.mp hzero.symm _ (List.mem_map_of_mem hc)
      cases hrun with
      | handler _ hmem => simp [hm] at hmem
      | job _ _ hnone => exact absurd hnone hc
    | jobs hs hm hc hne hall =>
      obtain ⟨s, c, hrun, hbad⟩ := hchild fun c hmem => by simp [hc] at hmem
      cases hrun with
      | handler _ hmem => simp [hm] at hmem
      | @job _ i _ _ _ hmem hbefore =>
        exact .job hs hm hc hmem hall
          (ih _ _ (.job hs hm hc hmem hbefore) (hall _ hmem) hbad)
    | jobFailed _ _ _ _ _ hbad => exact absurd hzero.symm hbad
    | nothing hs hm hc hnil =>
      obtain ⟨s, c, hrun, -⟩ := hchild fun c hmem => by simp [hc] at hmem
      cases hrun with
      | handler _ hmem => simp [hm] at hmem
      | job _ _ _ hmem => simp [hnil] at hmem

/-- The status of a run is faithful to the results of its commands just when no statuses of
handlers cancel. -/
theorem kbbiRun_faithful_iff (shell : Shell) (t : KbTree)
    (hsrc : t.Forall (fun _ n => kbnodeGetSrcdef n.symtab ≠ none) []) :
    ((kbbiRun shell [] t).ret = 0 ↔ AllSucceeded (kbbiRun shell [] t).trace) ↔
      ¬ HandlersCancel shell [] t := by
  rw [exitStatus_eq]
  constructor
  · intro hiff hcancel
    obtain ⟨hret, hbad⟩ := hcancel.masks hsrc
    exact hbad (hiff.mp hret)
  · intro hnot
    exact ⟨fun hret => by_contra fun hbad => hnot (.of_masked hret hbad),
      exitStatus_of_allSucceeded hsrc⟩

/-! ### Two handlers that cancel -/

/-- A node with a handler's signal and one command. -/
def handlerNode (id : String) : KbTree :=
  .ofVars id.toList [(kbnodeKeyHandles, ["s".toList]), (kbnodeKeyExec, [id.toList])] [] []

/-- A node that emits a signal with two handlers. -/
def twoHandlers : KbTree :=
  .ofVars "ep".toList [(kbnodeKeyEmits, ["s".toList])] [] [handlerNode "a", handlerNode "b"]

/-- The first handler fails with 1, the second with -1. -/
def cancelling : Shell := fun p _ _ => if p = [.handler 0] then 1 else -1

theorem twoHandlers_srcdef :
    twoHandlers.Forall (fun _ n => kbnodeGetSrcdef n.symtab ≠ none) [] := by
  refine KbTree.forall_node.mpr ⟨by decide, by simp, ?_⟩
  simp only [List.forall_mem_cons]
  exact ⟨KbTree.forall_node.mpr ⟨by decide, by simp, by simp⟩,
    KbTree.forall_node.mpr ⟨by decide, by simp, by simp⟩, by simp⟩

/-- Handlers that return 1 and -1 make their emitter return 0. -/
theorem kbbiRun_twoHandlers_cancelled :
    twoHandlers.Forall (fun _ n => kbnodeGetSrcdef n.symtab ≠ none) [] ∧
      ¬ ((kbbiRun cancelling [] twoHandlers).ret = 0 ↔
        AllSucceeded (kbbiRun cancelling [] twoHandlers).trace) := by
  refine ⟨twoHandlers_srcdef, fun hiff => ?_⟩
  have hall := hiff.mp (by decide)
  have hcommand : .command [.handler 0] 0 "a".toList 1 ∈ (kbbiRun cancelling [] twoHandlers).trace := by
    decide
  exact absurd (hall _ _ _ _ hcommand) (by decide)

theorem kbbiRun_faithful_twoHandlers :
    (kbbiRun (fun _ _ _ => 1) [] twoHandlers).ret = 0 ↔
      AllSucceeded (kbbiRun (fun _ _ _ => 1) [] twoHandlers).trace := by
  refine (kbbiRun_faithful_iff (fun _ _ _ => 1) twoHandlers twoHandlers_srcdef).mpr fun h => ?_
  exact absurd (h.masks twoHandlers_srcdef).1 (by decide)

end Kubeka
