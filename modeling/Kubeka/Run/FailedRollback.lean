import Kubeka.Run.Rollback

/-!
# Failed rollbacks

When a job fails, the parent rolls back the jobs up to it, and counts an error
for each rollback that reports a failure. `kbbi_rollback` executes all actions
of a node whatever they return and then reports success, so an action that
fails is an error of nobody; only a node without origin is reported.
-/

namespace Kubeka

variable (shell : Shell)

/-- In the run of `t` at `p` the job at `q` is rolled back: it or a later job of its parent has
failed. -/
inductive RolledBackJob (p : Path) (t : KbTree) : Path → KbTree → Prop
  | mk {q m failed bad c k} : Visited shell p t q m → RunsChild shell q m (.job bad) failed →
      exitStatus shell (q ++ [.job bad]) failed ≠ 0 → (c, k) ∈ m.jobs.zipIdx → k ≤ bad →
      RolledBackJob p t (q ++ [.job k]) c

/-- An action of the node at `q` is executed by its rollback and does not return 0. -/
def ActionFails (q : Path) (st : Symtab) : Prop :=
  kbnodeGetSrcdef st ≠ none ∧ (kbnodeGetvalueAll st kbnodeKeyRollback).head? ≠ some [] ∧
    ∃ i < (kbnodeGetvalueAll st kbnodeKeyRollback).length, shell q kbnodeKeyRollback i ≠ 0

/-- A failed rollback is reported, and counted as an error of the run. The parent takes its branch
for a failed rollback exactly for these nodes, and the other actions and nodes are rolled back all
the same. -/
structure ReportsRollbacks (p : Path) (t : KbTree) : Prop where
  reported : ∀ q c, RolledBackJob shell p t q c →
    ((kbbiRollback shell q c.symtab).ok = false ↔
      kbnodeGetSrcdef c.symtab = none ∨ ActionFails shell q c.symtab)
  counted : ∀ q c, RolledBackJob shell p t q c →
    kbnodeGetSrcdef c.symtab = none ∨ ActionFails shell q c.symtab → 0 < (kbbiRun shell p t).nerrors
  goesOn : ∀ q c, RolledBackJob shell p t q c → .rollback q ∈ (kbbiRun shell p t).trace ∧
    (kbnodeGetSrcdef c.symtab ≠ none →
      (kbnodeGetvalueAll c.symtab kbnodeKeyRollback).head? ≠ some [] →
      actionEvents shell q c.symtab ⊆ (kbbiRun shell p t).trace)

variable {shell}

/-! ### What is rolled back -/

theorem RolledBackJob.visited {p q : Path} {t c : KbTree} (h : RolledBackJob shell p t q c) :
    Visited shell p t q c := by
  obtain ⟨hm, hfailed, -, hmem, hle⟩ := h
  refine hm.trans (.child ?_ .here)
  cases hfailed with
  | job hsrc hmatching hcommands _ hbefore =>
    exact .job hsrc hmatching hcommands hmem fun j hj hlt => hbefore j hj (by omega)

/-- The rollback is part of the run, with all that it executes. -/
theorem RolledBackJob.rollbackTrace_subset {p q : Path} {t c : KbTree}
    (h : RolledBackJob shell p t q c) :
    (kbbiRollback shell q c.symtab).trace ⊆ (kbbiRun shell p t).trace := by
  cases h with
  | @mk q m failed bad c k hm hfailed hbad hmem hle =>
    obtain ⟨pre, post, hjobs, rfl, htrace⟩ := hfailed.trace_of_failed hbad
    have hsplit : m.jobs = (pre ++ [failed]) ++ post := by simp [hjobs]
    have hc : (c, k) ∈ (pre ++ [failed]).zipIdx :=
      mem_zipIdx_left hsplit hmem (by simpa using Nat.lt_succ_of_le hle)
    refine List.Subset.trans (fun e he => ?_) hm.subset
    rw [htrace]
    refine List.mem_append_left _ (List.mem_cons_of_mem _ (List.mem_append_right _ ?_))
    exact List.mem_flatMap.mpr ⟨(c, k), List.mem_reverse.mpr hc, he⟩

theorem kbbiRollback_ok (q : Path) (st : Symtab) :
    (kbbiRollback shell q st).ok = false ↔ kbnodeGetSrcdef st = none := by
  unfold kbbiRollback
  cases hsrc : kbnodeGetSrcdef st with
  | none => simp
  | some d =>
    dsimp only
    split <;> simp

theorem rollback_mem_trace (q : Path) (st : Symtab) :
    .rollback q ∈ (kbbiRollback shell q st).trace := by
  unfold kbbiRollback
  split
  · simp
  · split <;> simp

theorem actionEvents_subset (q : Path) {st : Symtab} (hsrc : kbnodeGetSrcdef st ≠ none)
    (hhead : (kbnodeGetvalueAll st kbnodeKeyRollback).head? ≠ some []) :
    actionEvents shell q st ⊆ (kbbiRollback shell q st).trace := by
  obtain ⟨d, hd⟩ := Option.ne_none_iff_exists'.mp hsrc
  simp only [actionEvents, kbbiRollback, hd]
  split
  · next hnil => simp [hnil]
  · next hempty => simp [hempty] at hhead
  · simp [kbexecShell, hd]

/-! ### Errors of the children -/

theorem runHandlers_nerrors {p : Path} {signals : List CStr} {i : ℕ} {hs : List KbTree}
    {h : KbTree × ℕ} (hmem : h ∈ hs.zipIdx i)
    (hfilter : nodeFilterHandlers h.1.symtab signals = true) :
    (kbbiRun shell (p ++ [.handler h.2]) h.1).nerrors ≤ (runHandlers shell p signals i hs).nerrors := by
  induction hs generalizing i with
  | nil => simp at hmem
  | cons g hs ih =>
    rw [List.zipIdx_cons, List.mem_cons] at hmem
    rw [runHandlers]
    rcases hmem with rfl | hmem
    · rw [if_pos hfilter]
      exact Nat.le_add_right _ _
    · have hrest := ih hmem
      split_ifs
      · exact hrest.trans (Nat.le_add_left _ _)
      · exact hrest

theorem runJobs_nerrors {p : Path} {all jobs : List KbTree} {i : ℕ} {j : KbTree × ℕ}
    (hmem : j ∈ jobs.zipIdx i) (hbefore : ∀ k ∈ jobs.zipIdx i, k.2 < j.2 → jobStatus shell p k = 0) :
    (kbbiRun shell (p ++ [.job j.2]) j.1).nerrors ≤ (runJobs shell p all i jobs).nerrors := by
  induction jobs generalizing i with
  | nil => simp at hmem
  | cons job jobs ih =>
    rw [List.zipIdx_cons] at hmem hbefore
    rw [runJobs]
    rcases List.mem_cons.mp hmem with rfl | hmem
    · split_ifs
      · exact Nat.le_add_right _ _
      · exact Nat.le_add_right _ _
    · have hlt : i < j.2 := by
        have hle := List.le_snd_of_mem_zipIdx hmem
        omega
      have hzero : (kbbiRun shell (p ++ [.job i]) job).ret = 0 :=
        (exitStatus_eq shell _ job).trans (hbefore (job, i) List.mem_cons_self hlt)
      rw [if_neg (not_not.mpr hzero)]
      exact (ih hmem fun k hk => hbefore k (List.mem_cons_of_mem _ hk)).trans (Nat.le_add_left _ _)

/-- The errors of a child are errors of its parent. -/
theorem RunsChild.nerrors_le {p : Path} {t c : KbTree} {s : Step} (h : RunsChild shell p t s c) :
    (kbbiRun shell (p ++ [s]) c).nerrors ≤ (kbbiRun shell p t).nerrors := by
  have hhandlers := runHandlers_eq shell p (kbnodeGetvalueAll t.symtab kbnodeKeyEmits) 0 t.handlers
  have hdone := hhandlers.2.2
  cases h with
  | @handler h i hsrc hm =>
    rw [kbbiRun_eq_finishNode shell p hsrc, finishNode,
      if_pos (hdone.mpr (List.ne_nil_of_mem hm))]
    obtain ⟨hmem, hfilter⟩ := List.mem_filter.mp hm
    exact runHandlers_nerrors hmem hfilter
  | @job job i hsrc hm hc hmem hbefore =>
    have hnone : (runHandlers shell p (kbnodeGetvalueAll t.symtab kbnodeKeyEmits) 0
        t.handlers).done = false := by
      rw [← Bool.not_eq_true]
      exact fun h => hdone.mp h hm
    have hjobs := (runJobs_eq shell p t.jobs [] t.jobs rfl fun j _ => exitStatus_eq shell _ j.1).1
    have hran : (runJobs shell p t.jobs 0 t.jobs).done = true :=
      hjobs.mpr fun hnil => by simp [hnil] at hmem
    have hcommands : (runCommands shell p t.symtab 0 (kbnodeGetvalueAll t.symtab kbnodeKeyExec)
        (runHandlers shell p (kbnodeGetvalueAll t.symtab kbnodeKeyEmits) 0 t.handlers).ret).2 = [] := by
      have hno : ((kbnodeGetvalueAll t.symtab kbnodeKeyExec).takeWhile (· ≠ [])).zipIdx = [] := hc
      rw [runCommands_eq shell p hsrc, hno]
      rfl
    rw [kbbiRun_eq_finishNode shell p hsrc, finishNode, hnone]
    simp only [Bool.false_eq_true, if_false, hcommands, hran, if_true, ne_eq, not_true_eq_false]
    exact runJobs_nerrors hmem hbefore

theorem Visited.nerrors_le {p q : Path} {t n : KbTree} (h : Visited shell p t q n) :
    (kbbiRun shell q n).nerrors ≤ (kbbiRun shell p t).nerrors := by
  induction h with
  | here => exact le_rfl
  | child hc _ ih => exact ih.trans hc.nerrors_le

theorem kbbiRun_nerrors_of_noSrcdef (q : Path) {n : KbTree} (h : kbnodeGetSrcdef n.symtab = none) :
    (kbbiRun shell q n).nerrors = 1 := by
  obtain ⟨type, st, jobs, handlers⟩ := n
  have hst : kbnodeGetSrcdef st = none := h
  rw [kbbiRun]
  simp only [hst]

/-! ### When failures are reported -/

/-- Failed rollbacks are reported exactly when there are none: when every action that the run
executes returns 0. -/
theorem reportsRollbacks_iff (shell : Shell) (p : Path) (t : KbTree) :
    ReportsRollbacks shell p t ↔ ∀ q c, RolledBackJob shell p t q c →
      kbnodeGetSrcdef c.symtab ≠ none →
      (kbnodeGetvalueAll c.symtab kbnodeKeyRollback).head? ≠ some [] →
      ∀ i < (kbnodeGetvalueAll c.symtab kbnodeKeyRollback).length,
        shell q kbnodeKeyRollback i = 0 := by
  constructor
  · intro h q c hrolled hsrc hhead i hi
    by_contra hne
    have hok := (h.reported q c hrolled).mpr (.inr ⟨hsrc, hhead, i, hi, hne⟩)
    exact hsrc ((kbbiRollback_ok q c.symtab).mp hok)
  · intro hzero
    have hfails : ∀ q c, RolledBackJob shell p t q c → ¬ ActionFails shell q c.symtab := by
      rintro q c hrolled ⟨hsrc, hhead, i, hi, hne⟩
      exact hne (hzero q c hrolled hsrc hhead i hi)
    constructor
    · intro q c hrolled
      rw [kbbiRollback_ok, or_iff_left (hfails q c hrolled)]
    · intro q c hrolled hfailed
      have hsrc := hfailed.resolve_right (hfails q c hrolled)
      have hle := hrolled.visited.nerrors_le
      rw [kbbiRun_nerrors_of_noSrcdef q hsrc] at hle
      exact hle
    · intro q c hrolled
      refine ⟨hrolled.rollbackTrace_subset (rollback_mem_trace q c.symtab), fun hsrc hhead => ?_⟩
      exact List.Subset.trans (actionEvents_subset q hsrc hhead) hrolled.rollbackTrace_subset

/-- The first job fails, so does its action, and the run has no error. -/
theorem twoJobs_notReported : (kbbiRun (fun _ _ _ => 1) [] twoJobs).nerrors = 0 ∧
    .action [.job 0] 0 "undo".toList 1 ∈ (kbbiRun (fun _ _ _ => 1) [] twoJobs).trace ∧
    ¬ ReportsRollbacks (fun _ _ _ => 1) [] twoJobs := by
  refine ⟨by decide, by decide, fun h => ?_⟩
  have hfirst : RunsChild (fun _ _ _ => 1) [] twoJobs (.job 0) (jobNode "a") :=
    .job (by decide) (by decide) (by decide) (.head _) (by simp)
  have hrolled : RolledBackJob (fun _ _ _ => 1) [] twoJobs ([] ++ [.job 0]) (jobNode "a") :=
    .mk .here hfirst (by decide) (.head _) le_rfl
  have hok := (h.reported _ _ hrolled).mpr (.inr ⟨by decide, by decide, 0, by decide, by decide⟩)
  exact absurd hok (by decide)

end Kubeka
