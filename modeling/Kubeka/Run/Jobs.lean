import Kubeka.Run.Trace

/-!
# Jobs in order, rollbacks unwound

At a node that runs its jobs, the starts, ends and rollbacks of the jobs and the
end of the node itself form one sequence, whatever happens below the jobs.
-/

namespace Kubeka

/-! ### The sequence of a job list -/

def isJobOf (q p : Path) : Bool :=
  match p.getLast? with
  | some (.job _) => p.dropLast = q
  | _ => false

theorem isJobOf_iff {q p : Path} : isJobOf q p = true ↔ ∃ i, p = q ++ [.job i] := by
  induction p using List.reverseRecOn with
  | nil => simp [isJobOf]
  | append_singleton p s _ =>
    cases s with
    | job i => simp [isJobOf]
    | handler i => simp [isJobOf]

/-- Starts, ends and rollbacks of the jobs of the node at `q`, and its own end. -/
def Event.concernsJobs (q : Path) : Event → Bool
  | .start p | .rollback p => isJobOf q p
  | .finish p _ => isJobOf q p || p = q
  | _ => false

def jobEvents (q : Path) (trace : List Event) : List Event :=
  trace.filter (Event.concernsJobs q)

variable (shell : Shell)

def jobResult (q : Path) (j : KbTree × ℕ) : CInt := (kbbiRun shell (q ++ [.job j.2]) j.1).ret

def jobRun (q : Path) (j : KbTree × ℕ) : List Event :=
  [.start (q ++ [.job j.2]), .finish (q ++ [.job j.2]) (jobResult shell q j)]

def jobRollback (q : Path) (j : KbTree × ℕ) : Event := .rollback (q ++ [.job j.2])

/-- The jobs of the node `n` at `q` were run in order up to the first that failed; then that one
and those before it were rolled back, the last one first, and the node returned its result. -/
structure JobsUnwound (q : Path) (n : KbTree) (trace : List Event) : Prop where
  succeeded : (∀ j ∈ n.jobs.zipIdx, jobResult shell q j = 0) →
    jobEvents q trace = n.jobs.zipIdx.flatMap (jobRun shell q) ++ [.finish q 0]
  failed : ∀ pre job post, n.jobs = pre ++ job :: post →
    (∀ j ∈ pre.zipIdx, jobResult shell q j = 0) → jobResult shell q (job, pre.length) ≠ 0 →
    jobEvents q trace = (pre ++ [job]).zipIdx.flatMap (jobRun shell q) ++
      (pre ++ [job]).zipIdx.reverse.map (jobRollback q) ++
      [.finish q (jobResult shell q (job, pre.length))]

variable {shell}

theorem Event.concernsJobs_path {q : Path} {e : Event} (h : e.concernsJobs q = true) :
    (∃ i, e.path = q ++ [.job i]) ∨ (e.path = q ∧ e.isRollback = false) := by
  cases e with
  | start p => exact .inl (isJobOf_iff.mp h)
  | rollback p => exact .inl (isJobOf_iff.mp h)
  | finish p ret =>
    rcases Bool.or_eq_true _ _ |>.mp h with h | h
    · exact .inl (isJobOf_iff.mp h)
    · exact .inr ⟨of_decide_eq_true h, rfl⟩
  | command | noAction | action => simp [concernsJobs] at h

theorem jobResult_eq (q : Path) (j : KbTree × ℕ) : jobResult shell q j = jobStatus shell q j :=
  exitStatus_eq shell _ _

/-- Of the run of a job, its start and its end concern the jobs it is one of. -/
theorem jobEvents_jobTrace (q : Path) (j : KbTree × ℕ) :
    jobEvents q (jobTrace shell q j) = jobRun shell q j := by
  obtain ⟨own, kids, rolled, hblocks, htrace⟩ := kbbiRun_blocks shell (q ++ [.job j.2]) j.1
  have hown : own.filter (Event.concernsJobs q) = [] := by
    refine List.filter_eq_nil_iff.mpr fun e he => ?_
    rcases hblocks.own_eq e he with ⟨i, cmd, rc, rfl⟩ | rfl <;> simp [Event.concernsJobs]
  have hbelow : (kids.flatMap (childTrace shell (q ++ [.job j.2])) ++
      rolled.flatMap (rollbackTrace shell (q ++ [.job j.2]))).filter (Event.concernsJobs q) = [] := by
    refine List.filter_eq_nil_iff.mpr fun e he hc => ?_
    obtain ⟨hpre, hne⟩ := hblocks.below he
    rcases Event.concernsJobs_path hc with ⟨i, hi⟩ | ⟨hi, -⟩
    · rw [hi] at hpre hne
      exact hne (by rw [step_unique hpre (List.prefix_refl _)])
    · exact not_step_below q _ (hi ▸ hpre)
  have hjob : isJobOf q (q ++ [.job j.2]) = true := isJobOf_iff.mpr ⟨_, rfl⟩
  rw [jobEvents, jobTrace, htrace, List.append_assoc own]
  generalize kids.flatMap (childTrace shell (q ++ [.job j.2])) ++ _ = below at hbelow
  simp [hown, hbelow, Event.concernsJobs, hjob, jobRun, jobResult, exitStatus_eq]

theorem jobEvents_rollbackTrace (q : Path) (j : KbTree × ℕ) :
    jobEvents q (rollbackTrace shell q j) = [jobRollback q j] := by
  obtain ⟨heq, htail⟩ := rollbackTrace_eq shell q j
  have hnone : (rollbackTrace shell q j).tail.filter (Event.concernsJobs q) = [] := by
    refine List.filter_eq_nil_iff.mpr fun e he => ?_
    obtain ⟨i, cmd, rc, rfl⟩ := htail e he
    simp [Event.concernsJobs]
  have hhead : Event.concernsJobs q (.rollback (q ++ [.job j.2])) = true := isJobOf_iff.mpr ⟨_, rfl⟩
  rw [jobEvents, heq, List.filter_cons_of_pos hhead, hnone]
  rfl

/-- Around the run of a node nothing concerns its jobs. -/
theorem Visited.jobEvents {p q : Path} {t n : KbTree} (h : Visited shell p t q n) :
    jobEvents q (kbbiRun shell p t).trace = jobEvents q (kbbiRun shell q n).trace := by
  obtain ⟨a, b, htrace, ha, hb⟩ := h.block
  have hpre : ∀ e : Event, e.concernsJobs q = true → q <+: e.path := by
    intro e he
    rcases Event.concernsJobs_path he with ⟨i, hi⟩ | ⟨hi, -⟩
    · exact hi ▸ List.prefix_append _ _
    · exact hi ▸ List.prefix_refl _
  have ha' : a.filter (Event.concernsJobs q) = [] :=
    List.filter_eq_nil_iff.mpr fun e he hc => ha e he (hpre e hc)
  have hb' : b.filter (Event.concernsJobs q) = [] := by
    refine List.filter_eq_nil_iff.mpr fun e he hc => ?_
    obtain ⟨hpath, hrb⟩ := hb e he (hpre e hc)
    rcases Event.concernsJobs_path hc with ⟨i, hi⟩ | ⟨-, hnot⟩
    · simp [hpath] at hi
    · simp [hrb] at hnot
  simp [Kubeka.jobEvents, htrace, ha', hb']

theorem jobEvents_append (q : Path) (a b : List Event) :
    jobEvents q (a ++ b) = jobEvents q a ++ jobEvents q b := List.filter_append a b

theorem jobEvents_flatMap {α : Type} (q : Path) (l : List α) (f : α → List Event) :
    jobEvents q (l.flatMap f) = l.flatMap fun x => jobEvents q (f x) := List.filter_flatMap

/-- The end of a node concerns its jobs, its start does not. -/
theorem jobEvents_node (q : Path) (mid : List Event) (ret : CInt) :
    jobEvents q (.start q :: mid ++ [.finish q ret]) = jobEvents q mid ++ [.finish q ret] := by
  have hself : isJobOf q q = false := by
    rw [← Bool.not_eq_true, isJobOf_iff]
    rintro ⟨i, hi⟩
    simp at hi
  simp [jobEvents, Event.concernsJobs, hself]

/-- The first job that fails is the only one that is the first to fail. -/
theorem first_failure_unique {q : Path} {jobs pre post pre' post' : List KbTree} {job job' : KbTree}
    (h : jobs = pre ++ job :: post) (h' : jobs = pre' ++ job' :: post')
    (hpre : ∀ j ∈ pre.zipIdx, jobStatus shell q j = 0)
    (hjob : jobStatus shell q (job, pre.length) ≠ 0)
    (hpre' : ∀ j ∈ pre'.zipIdx, jobStatus shell q j = 0)
    (hjob' : jobStatus shell q (job', pre'.length) ≠ 0) : pre = pre' ∧ job = job' := by
  have hle : ∀ {pre pre' post post' : List KbTree} {job job' : KbTree},
      jobs = pre ++ job :: post → jobs = pre' ++ job' :: post' →
      (∀ j ∈ pre'.zipIdx, jobStatus shell q j = 0) →
      jobStatus shell q (job, pre.length) ≠ 0 → pre'.length ≤ pre.length := by
    intro pre pre' post post' job job' h h' hpre' hjob
    by_contra hlt
    apply hjob
    apply hpre' (job, pre.length)
    have hget : jobs[pre.length]? = some job := by simp [h]
    rw [List.mem_zipIdx_iff_getElem?]
    rwa [h', List.getElem?_append_left (not_le.mp hlt)] at hget
  have hlen : pre.length = pre'.length :=
    le_antisymm (hle h' h hpre hjob') (hle h h' hpre' hjob)
  obtain ⟨heq, htail⟩ := List.append_inj (h.symm.trans h') hlen
  exact ⟨heq, (List.cons.inj htail).1⟩

/-- A node that gets to its jobs runs and unwinds them. -/
theorem Visited.jobsUnwound {p q : Path} {t n c : KbTree} {i : ℕ} (h : Visited shell p t q n)
    (hc : RunsChild shell q n (.job i) c) :
    JobsUnwound shell q n (kbbiRun shell p t).trace := by
  have hres : ∀ j, jobResult shell q j = jobStatus shell q j := jobResult_eq q
  obtain ⟨mid, hran, htrace⟩ := kbbiRun_spec shell q n
  cases hc with
  | job hsrc hm hcmd hmem hbefore =>
    have hne : n.jobs ≠ [] := by
      intro hnil
      simp [hnil] at hmem
    generalize hst : exitStatus shell q n = ret at hran htrace
    cases hran with
    | noSrcdef hnone => exact absurd hnone hsrc
    | handlers _ hnone => exact absurd hm hnone
    | commands _ _ hnone => exact absurd hcmd hnone
    | nothing _ _ _ hnil => exact absurd hnil hne
    | jobs _ _ _ _ hzero =>
      refine ⟨fun _ => ?_, fun pre job post heq _ hbad => absurd (hzero _ ?_) (hres _ ▸ hbad)⟩
      · rw [h.jobEvents, htrace, jobEvents_node, jobEvents_flatMap]
        simp only [jobEvents_jobTrace]
      · simp [heq, List.zipIdx_append]
    | @jobFailed pre job post _ _ _ heq hzero hbad =>
      refine ⟨fun hall => absurd (hall (job, pre.length) ?_) (hres _ ▸ hbad),
        fun pre' job' post' heq' hzero' hbad' => ?_⟩
      · simp [heq, List.zipIdx_append]
      · simp only [hres] at hzero' hbad' ⊢
        obtain ⟨rfl, rfl⟩ := first_failure_unique heq' heq hzero' hbad' hzero hbad
        rw [h.jobEvents, htrace, jobEvents_node, jobEvents_append, jobEvents_flatMap,
          jobEvents_flatMap]
        simp only [jobEvents_jobTrace, jobEvents_rollbackTrace, List.map_eq_flatMap]

/-- Jobs start in order up to the first that fails, which is then rolled back with those before it,
last one first; and in the whole run nothing is started twice, rolled back twice or rolled back
without having been started. -/
theorem kbbiRun_jobsUnwound (shell : Shell) (t : KbTree) :
    let trace := (kbbiRun shell [] t).trace
    (∀ q up n, t.at? [] q = some (up, n) → (∃ i, .start (q ++ [.job i]) ∈ trace) →
      JobsUnwound shell q n trace) ∧
    (∀ q, trace.count (.start q) ≤ 1 ∧ trace.count (.rollback q) ≤ 1) ∧
    ∀ q, .rollback q ∈ trace → [.start q, .rollback q].Sublist trace := by
  have hnodup := List.nodup_iff_count_le_one.mp (trace_nodup shell [] t)
  refine ⟨fun q up n hat hstart => ?_, fun q => ⟨hnodup _, hnodup _⟩,
    fun q => rollback_after_start⟩
  obtain ⟨i, hi⟩ := hstart
  obtain ⟨m, c, hm, hc⟩ := Visited.of_child_start List.nil_prefix hi
  obtain rfl := hm.eq_of_at? hat
  exact hm.jobsUnwound hc

/-- A node with a command and its rollback. -/
def jobNode (id : String) : KbTree :=
  .ofVars id.toList [(kbnodeKeyExec, [id.toList]), (kbnodeKeyRollback, ["undo".toList])] [] []

def twoJobs : KbTree := .ofVars "ep".toList [] [jobNode "a", jobNode "b"] []

def secondFails : Shell := fun p key _ => if p = [.job 1] ∧ key = kbnodeKeyExec then 1 else 0

theorem kbbiRun_jobsUnwound_twoJobs : jobEvents [] (kbbiRun secondFails [] twoJobs).trace =
    [.start [.job 0], .finish [.job 0] 0, .start [.job 1], .finish [.job 1] 1,
      .rollback [.job 1], .rollback [.job 0], .finish [] 1] := by
  have hroot := (kbbiRun_jobsUnwound secondFails twoJobs).1 [] [] twoJobs rfl ⟨0, by decide⟩
  exact (hroot.failed [jobNode "a"] (jobNode "b") [] rfl (by decide) (by decide)).trans (by decide)

end Kubeka
