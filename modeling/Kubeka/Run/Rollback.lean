import Kubeka.Run.Jobs
import Kubeka.Run.Status

/-!
# Compensation of failed commands

Only the job loop of a parent rolls a node back. A node whose EXEC has failed is
compensated when it was run as a job and its first ROLLBACK action is not empty,
and in no other case.
-/

namespace Kubeka

variable (shell : Shell)

/-- The actions of ROLLBACK, executed in order. -/
def actionEvents (p : Path) (st : Symtab) : List Event :=
  (kbnodeGetvalueAll st kbnodeKeyRollback).mapIdx fun i a =>
    .action p i a (shell p kbnodeKeyRollback i)

/-- In the run that started at the root all ROLLBACK actions of the node at `q` are executed, in
order and exactly once, after its EXEC commands and before the run returns. -/
def Compensated (q : Path) (st : Symtab) (trace : List Event) : Prop :=
  ∃ a b, trace = a ++ actionEvents shell q st ++ b ∧
    (∀ i cmd rc, .action q i cmd rc ∉ a ++ b) ∧
    (∀ i cmd rc, .command q i cmd rc ∉ b) ∧ ∃ ret, .finish [] ret ∈ b

/-- The node at `q` executes commands and they do not all return 0. -/
def ExecFails (q : Path) (n : KbTree) : Prop :=
  kbnodeGetSrcdef n.symtab ≠ none ∧ matching n = [] ∧
    ∃ c ∈ commandsOf n.symtab, shell q kbnodeKeyExec c.2 ≠ 0

/-- ROLLBACK has an action that is not empty. -/
def HasRollback (st : Symtab) : Prop := ∃ a ∈ kbnodeGetvalueAll st kbnodeKeyRollback, a ≠ []

variable {shell}

theorem ExecFails.exitStatus_ne {q : Path} {n : KbTree} (h : ExecFails shell q n) :
    exitStatus shell q n ≠ 0 := by
  obtain ⟨hsrc, hm, c, hc, hne⟩ := h
  rw [exitStatus_of_commands hsrc hm (List.ne_nil_of_mem hc)]
  exact fun hzero => hne (orAll_eq_zero_iff.mp hzero _ (List.mem_map.mpr ⟨c, hc, rfl⟩))

/-- Of the actions of a job its rollback executes all or, where the first is empty, none. -/
theorem rollbackTrace_actions {p : Path} {j : KbTree × ℕ}
    (hsrc : kbnodeGetSrcdef j.1.symtab ≠ none) (hroll : HasRollback j.1.symtab)
    (hhead : (kbnodeGetvalueAll j.1.symtab kbnodeKeyRollback).head? ≠ some []) :
    rollbackTrace shell p j = .rollback (p ++ [.job j.2]) ::
      actionEvents shell (p ++ [.job j.2]) j.1.symtab := by
  obtain ⟨d, hd⟩ := Option.ne_none_iff_exists'.mp hsrc
  obtain ⟨a, ha, -⟩ := hroll
  simp only [rollbackTrace, kbbiRollback, hd, actionEvents]
  split
  · next hnil => simp [hnil] at ha
  · next hempty => simp [hempty] at hhead
  · simp [kbexecShell, hd]

theorem head_of_action_mem {p q : Path} {j : KbTree × ℕ} {i : ℕ} {cmd : CStr} {rc : CInt}
    (h : .action q i cmd rc ∈ rollbackTrace shell p j) :
    (kbnodeGetvalueAll j.1.symtab kbnodeKeyRollback).head? ≠ some [] ∧
      .action q i cmd rc ∈ actionEvents shell q j.1.symtab := by
  simp only [rollbackTrace, kbbiRollback] at h
  split at h
  · simp at h
  · next d hd =>
    split at h
    · simp at h
    · simp at h
    · next hne hhead =>
      refine ⟨fun heq => ?_, ?_⟩
      · cases hvs : kbnodeGetvalueAll j.1.symtab kbnodeKeyRollback with
        | nil => exact hne hvs
        | cons v vs =>
          obtain rfl : v = [] := by simpa [hvs] using heq
          exact hhead vs hvs
      · simp only [List.mem_cons, reduceCtorEq, false_or, List.mem_mapIdx] at h
        obtain ⟨k, hk, heq⟩ := h
        simp only [Event.action.injEq] at heq
        obtain ⟨rfl, rfl, rfl, rfl⟩ := heq
        exact List.mem_mapIdx.mpr ⟨k, hk, by simp [kbexecShell, hd]⟩

/-- When a job fails, the jobs up to it have run, and then they are rolled back. -/
theorem RunsChild.trace_of_failed {p : Path} {t c : KbTree} {i : ℕ}
    (h : RunsChild shell p t (.job i) c) (hbad : exitStatus shell (p ++ [.job i]) c ≠ 0) :
    ∃ pre post, t.jobs = pre ++ c :: post ∧ i = pre.length ∧
      (kbbiRun shell p t).trace = .start p :: ((pre ++ [c]).zipIdx.flatMap (jobTrace shell p) ++
        (pre ++ [c]).zipIdx.reverse.flatMap (rollbackTrace shell p)) ++
          [.finish p (jobStatus shell p (c, pre.length))] := by
  obtain ⟨mid, hran, htrace⟩ := kbbiRun_spec shell p t
  cases h with
  | job hsrc hm hc hmem hbefore =>
    generalize exitStatus shell p t = ret at hran htrace
    cases hran with
    | noSrcdef hnone => exact absurd hnone hsrc
    | handlers _ hne => exact absurd hm hne
    | commands _ _ hne => exact absurd hc hne
    | nothing _ _ _ hnil => simp [hnil] at hmem
    | jobs _ _ _ _ hzero => exact absurd (hzero _ hmem) hbad
    | @jobFailed pre job post _ _ _ hjobs hzero hfail =>
      have hi : i = pre.length := by
        refine le_antisymm (not_lt.mp fun hlt => ?_) (not_lt.mp fun hlt => ?_)
        · exact hfail (hbefore (job, pre.length) (by simp [hjobs, List.zipIdx_append]) hlt)
        · exact hbad (hzero _ (mem_zipIdx_left hjobs hmem hlt))
      have hjob : c = job := by
        have hget := List.mem_zipIdx_iff_getElem?.mp hmem
        simpa [hjobs, hi, eq_comm] using hget
      rw [← hjob] at hjobs htrace
      exact ⟨pre, post, hjobs, hi, htrace⟩

/-- A job that fails is rolled back by its parent, after it has run. -/
theorem RunsChild.rolledBack {p : Path} {t c : KbTree} {i : ℕ} (h : RunsChild shell p t (.job i) c)
    (hbad : exitStatus shell (p ++ [.job i]) c ≠ 0) :
    ∃ a b, (kbbiRun shell p t).trace = a ++ rollbackTrace shell p (c, i) ++ b ∧
      (kbbiRun shell (p ++ [.job i]) c).trace ⊆ a ∧ b ≠ [] := by
  obtain ⟨pre, post, -, rfl, htrace⟩ := h.trace_of_failed hbad
  refine ⟨.start p :: (pre ++ [c]).zipIdx.flatMap (jobTrace shell p),
    pre.zipIdx.reverse.flatMap (rollbackTrace shell p) ++
      [.finish p (jobStatus shell p (c, pre.length))], ?_, ?_, by simp⟩
  · rw [htrace]
    simp [List.zipIdx_append]
  · intro e he
    refine List.mem_cons_of_mem _ (List.mem_flatMap.mpr ⟨(c, pre.length), ?_, he⟩)
    simp [List.zipIdx_append]

theorem finish_mem_of_suffix {p : Path} {t : KbTree} {a b : List Event}
    (h : (kbbiRun shell p t).trace = a ++ b) (hb : b ≠ []) : ∃ ret, .finish p ret ∈ b := by
  obtain ⟨mid, -, htrace⟩ := kbbiRun_spec shell p t
  have hlast : (a ++ b).getLast? = some (.finish p (exitStatus shell p t)) := by
    rw [← h, htrace]
    exact List.getLast?_concat
  rw [List.getLast?_append_of_ne_nil _ hb] at hlast
  exact ⟨_, List.mem_of_getLast? hlast⟩

/-- The actions at a node are those of its rollback as a job. -/
theorem Visited.of_action {p q : Path} {t : KbTree} {i : ℕ} {cmd : CStr} {rc : CInt}
    (h : .action q i cmd rc ∈ (kbbiRun shell p t).trace) :
    ∃ q' m k c, Visited shell p t q' m ∧ RunsChild shell q' m (.job k) c ∧ q = q' ++ [.job k] ∧
      (kbnodeGetvalueAll c.symtab kbnodeKeyRollback).head? ≠ some [] ∧
      .action q i cmd rc ∈ actionEvents shell q c.symtab := by
  obtain ⟨q', m, k, c, hm, hc, hmem⟩ := Visited.of_mem_rollback h rfl
  obtain ⟨hhead, haction⟩ := head_of_action_mem hmem
  exact ⟨q', m, k, c, hm, hc, (mem_rollbackTrace hmem).1, hhead, haction⟩

/-- A job that is compensated is the one at its place. -/
theorem Visited.of_action_at {q : Path} {t n : KbTree} {i : ℕ} {cmd : CStr} {rc : CInt}
    (hn : Visited shell [] t q n) (h : .action q i cmd rc ∈ (kbbiRun shell [] t).trace) :
    (∃ q' k, q = q' ++ [.job k]) ∧
      (kbnodeGetvalueAll n.symtab kbnodeKeyRollback).head? ≠ some [] ∧
      .action q i cmd rc ∈ actionEvents shell q n.symtab := by
  obtain ⟨q', m, k, c, hm, hc, rfl, hhead, hmem⟩ := Visited.of_action h
  obtain rfl : c = n := (hm.trans (.child hc .here)).unique hn
  exact ⟨⟨q', k, rfl⟩, hhead, hmem⟩

theorem notMem_of_nodup {x y z : List Event} {e : Event} (h : (x ++ y ++ z).Nodup) (hy : e ∈ y) :
    e ∉ x ++ z := by
  obtain ⟨hxy, -, hz⟩ := List.nodup_append.mp h
  obtain ⟨-, -, hx⟩ := List.nodup_append.mp hxy
  intro he
  rcases List.mem_append.mp he with he | he
  · exact hx e he e hy rfl
  · exact hz e (List.mem_append_right x hy) e he rfl

theorem Visited.compensated {q : Path} {t n : KbTree} {k : ℕ} (h : Visited shell [] t (q ++ [.job k]) n)
    (hfails : ExecFails shell (q ++ [.job k]) n) (hroll : HasRollback n.symtab)
    (hhead : (kbnodeGetvalueAll n.symtab kbnodeKeyRollback).head? ≠ some []) :
    Compensated shell (q ++ [.job k]) n.symtab (kbbiRun shell [] t).trace := by
  rcases h.parent with ⟨hnil, -⟩ | ⟨q', m, s, hm, hc, heq⟩
  · simp at hnil
  obtain ⟨rfl, hs⟩ := List.append_inj' heq (by simp)
  obtain rfl := (List.cons.inj hs).1
  obtain ⟨a, b, htrace, hsub, hb⟩ := hc.rolledBack hfails.exitStatus_ne
  obtain ⟨a', b', htrace', -, -⟩ := hm.block
  rw [rollbackTrace_actions hfails.1 hroll hhead] at htrace
  have hsplit : (kbbiRun shell [] t).trace = (a' ++ a ++ [.rollback (q ++ [.job k])]) ++
      actionEvents shell (q ++ [.job k]) n.symtab ++ (b ++ b') := by
    simp [htrace', htrace]
  have hnodup := trace_nodup shell [] t
  rw [hsplit] at hnodup
  refine ⟨_, _, hsplit, fun i cmd rc hmem => ?_, fun i cmd rc hmem => ?_, ?_⟩
  · -- an action before or after these would be one of these
    have hin : .action (q ++ [.job k]) i cmd rc ∈ (kbbiRun shell [] t).trace := by
      rw [hsplit, List.append_assoc]
      simp only [List.mem_append] at hmem ⊢
      tauto
    exact notMem_of_nodup hnodup (h.of_action_at hin).2.2 hmem
  · have hin : .command (q ++ [.job k]) i cmd rc ∈ (kbbiRun shell [] t).trace := by
      rw [hsplit]
      exact List.mem_append_right _ hmem
    have hbefore := hsub ((h.mem_trace_iff rfl).mp hin)
    exact (List.nodup_append.mp hnodup).2.2 _ (by simp [hbefore]) _ hmem rfl
  · exact finish_mem_of_suffix hsplit (by simp [hb])

/-- Every node whose EXEC fails and which has a ROLLBACK is compensated just when every such node
is run as a job and has a first ROLLBACK action that is not empty. -/
theorem kbbiRun_compensates_iff (shell : Shell) (t : KbTree) :
    (∀ q up n, t.at? [] q = some (up, n) →
      (∃ i cmd rc, .command q i cmd rc ∈ (kbbiRun shell [] t).trace ∧ rc ≠ 0) →
      HasRollback n.symtab → Compensated shell q n.symtab (kbbiRun shell [] t).trace) ↔
    ∀ q n, Visited shell [] t q n → ExecFails shell q n → HasRollback n.symtab →
      (∃ q' k, q = q' ++ [.job k]) ∧
        (kbnodeGetvalueAll n.symtab kbnodeKeyRollback).head? ≠ some [] := by
  constructor
  · intro h q n hn hfails hroll
    obtain ⟨up, hat⟩ := hn.exists_at
    obtain ⟨hsrc, hm, c, hc, hne⟩ := hfails
    obtain ⟨a, b, htrace, -, -, -⟩ := h q up n hat
      ⟨c.2, c.1, _, command_mem_trace.mpr ⟨n, hn, hsrc, hm, hc, rfl⟩, hne⟩ hroll
    obtain ⟨act, hact, -⟩ := hroll
    obtain ⟨k, hk, hget⟩ := List.mem_iff_getElem.mp hact
    have hin : .action q k act (shell q kbnodeKeyRollback k) ∈ (kbbiRun shell [] t).trace := by
      rw [htrace]
      refine List.mem_append_left _ (List.mem_append_right _ (List.mem_mapIdx.mpr ⟨k, hk, ?_⟩))
      rw [hget]
    obtain ⟨hjob, hhead, -⟩ := hn.of_action_at hin
    exact ⟨hjob, hhead⟩
  · intro h q up n hat hcommand hroll
    obtain ⟨i, cmd, rc, hmem, hne⟩ := hcommand
    obtain ⟨n', hn', hsrc, hm, hc, rfl⟩ := command_mem_trace.mp hmem
    obtain rfl := hn'.eq_of_at? hat
    have hfails : ExecFails shell q n' := ⟨hsrc, hm, _, hc, hne⟩
    obtain ⟨⟨q', k, rfl⟩, hhead⟩ := h q n' hn' hfails hroll
    exact hn'.compensated hfails hroll hhead

/-! ### A root that fails -/

/-- Nothing but the command of the root is executed, and it fails. -/
theorem kbbiRun_rootFails_not_compensated :
    .command [] 0 "a".toList 1 ∈ (kbbiRun (fun _ _ _ => 1) [] (jobNode "a")).trace ∧
      HasRollback (jobNode "a").symtab ∧
      ¬ Compensated (fun _ _ _ => 1) [] (jobNode "a").symtab
        (kbbiRun (fun _ _ _ => 1) [] (jobNode "a")).trace := by
  refine ⟨by decide, ⟨"undo".toList, by decide, by decide⟩, ?_⟩
  rintro ⟨a, b, htrace, -⟩
  have haction : .action [] 0 "undo".toList 1 ∈
      (kbbiRun (fun _ _ _ => 1) [] (jobNode "a")).trace := by
    rw [htrace]
    exact List.mem_append_left _ (List.mem_append_right _ (by decide))
  exact absurd haction (by decide)

end Kubeka
