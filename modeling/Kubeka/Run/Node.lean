import Kubeka.Model.Run

/-!
# One node of a run

`exitStatus` says what the exit codes of the commands amount to at a node, from
the tree and the codes alone. `NodeRan` lists the ways in which a node can be
run, each with its status and with the events between the start and the end of
the node; `kbbiRun_spec` is the only place where the loops of `kbbi_run` are
unfolded.
-/

namespace Kubeka

variable (shell : Shell) (p : Path)

/-! ### What a node has to run -/

/-- The handlers of the signals of a node, with their positions. -/
def matching (t : KbTree) : List (KbTree × ℕ) :=
  t.handlers.zipIdx.filter fun h =>
    nodeFilterHandlers h.1.symtab (kbnodeGetvalueAll t.symtab kbnodeKeyEmits)

/-- The commands of EXEC up to the first empty one, with their positions. -/
def commandsOf (st : Symtab) : List (CStr × ℕ) :=
  ((kbnodeGetvalueAll st kbnodeKeyExec).takeWhile (· ≠ [])).zipIdx

/-- Results of commands combined by `|=`. -/
def orAll (results : List CInt) : CInt := results.foldr (· ||| ·) 0

mutual

/-- What the exit codes amount to at a node: the sum over the handlers of its signals, or all
commands together, or the first job that fails. -/
def exitStatus (shell : Shell) (p : Path) : KbTree → CInt
  | .node type st jobs handlers =>
    if kbnodeGetSrcdef st = none then exitFailure
    else if matching (.node type st jobs handlers) ≠ [] then
      handlersStatus shell p (kbnodeGetvalueAll st kbnodeKeyEmits) 0 handlers
    else if commandsOf st ≠ [] then
      orAll ((commandsOf st).map fun c => shell p kbnodeKeyExec c.2)
    else jobsStatus shell p 0 jobs

def handlersStatus (shell : Shell) (p : Path) (signals : List CStr) : ℕ → List KbTree → CInt
  | _, [] => 0
  | i, h :: hs =>
    (if nodeFilterHandlers h.symtab signals then exitStatus shell (p ++ [.handler i]) h else 0) +
      handlersStatus shell p signals (i + 1) hs

def jobsStatus (shell : Shell) (p : Path) : ℕ → List KbTree → CInt
  | _, [] => 0
  | i, job :: jobs =>
    if exitStatus shell (p ++ [.job i]) job ≠ 0 then exitStatus shell (p ++ [.job i]) job
    else jobsStatus shell p (i + 1) jobs

end

def handlerStatus (h : KbTree × ℕ) : CInt := exitStatus shell (p ++ [.handler h.2]) h.1

def jobStatus (j : KbTree × ℕ) : CInt := exitStatus shell (p ++ [.job j.2]) j.1

/-! ### The events of a node -/

def handlerTrace (h : KbTree × ℕ) : List Event := (kbbiRun shell (p ++ [.handler h.2]) h.1).trace

def jobTrace (j : KbTree × ℕ) : List Event := (kbbiRun shell (p ++ [.job j.2]) j.1).trace

def commandEvent (c : CStr × ℕ) : Event := .command p c.2 c.1 (shell p kbnodeKeyExec c.2)

def rollbackTrace (j : KbTree × ℕ) : List Event :=
  (kbbiRollback shell (p ++ [.job j.2]) j.1.symtab).trace

/-- The ways to run a node, with the status and the events between its start and its end. -/
inductive NodeRan (t : KbTree) : CInt → List Event → Prop
  | noSrcdef : kbnodeGetSrcdef t.symtab = none → NodeRan t exitFailure []
  | handlers : kbnodeGetSrcdef t.symtab ≠ none → matching t ≠ [] →
      NodeRan t ((matching t).map (handlerStatus shell p)).sum
        ((matching t).flatMap (handlerTrace shell p))
  | commands : kbnodeGetSrcdef t.symtab ≠ none → matching t = [] → commandsOf t.symtab ≠ [] →
      NodeRan t (orAll ((commandsOf t.symtab).map fun c => shell p kbnodeKeyExec c.2))
        ((commandsOf t.symtab).map (commandEvent shell p))
  | jobs : kbnodeGetSrcdef t.symtab ≠ none → matching t = [] → commandsOf t.symtab = [] →
      t.jobs ≠ [] → (∀ j ∈ t.jobs.zipIdx, jobStatus shell p j = 0) →
      NodeRan t 0 (t.jobs.zipIdx.flatMap (jobTrace shell p))
  | jobFailed {pre job post} : kbnodeGetSrcdef t.symtab ≠ none → matching t = [] →
      commandsOf t.symtab = [] → t.jobs = pre ++ job :: post →
      (∀ j ∈ pre.zipIdx, jobStatus shell p j = 0) → jobStatus shell p (job, pre.length) ≠ 0 →
      NodeRan t (jobStatus shell p (job, pre.length))
        ((pre ++ [job]).zipIdx.flatMap (jobTrace shell p) ++
          (pre ++ [job]).zipIdx.reverse.flatMap (rollbackTrace shell p))
  | nothing : kbnodeGetSrcdef t.symtab ≠ none → matching t = [] → commandsOf t.symtab = [] →
      t.jobs = [] → NodeRan t 0 [.noAction p]

/-! ### The loops -/

theorem runCommands_eq {st : Symtab} (hsrc : kbnodeGetSrcdef st ≠ none) (i : ℕ) (cmds : List CStr)
    (ret : CInt) : runCommands shell p st i cmds ret =
      (ret ||| orAll (((cmds.takeWhile (· ≠ [])).zipIdx i).map fun c => shell p kbnodeKeyExec c.2),
        ((cmds.takeWhile (· ≠ [])).zipIdx i).map (commandEvent shell p)) := by
  have hshell : ∀ rc, kbexecShell st rc = rc := by
    intro rc
    obtain ⟨d, hd⟩ := Option.ne_none_iff_exists'.mp hsrc
    simp [kbexecShell, hd]
  induction cmds generalizing i ret with
  | nil => simp [runCommands, orAll]
  | cons cmd cmds ih =>
    by_cases hcmd : cmd = []
    · simp [runCommands, hcmd, orAll]
    · simp [runCommands, hcmd, ih, hshell, orAll, commandEvent, BitVec.or_assoc]

theorem runHandlers_eq (signals : List CStr) (i : ℕ) (hs : List KbTree) :
    let sel := (hs.zipIdx i).filter fun h => nodeFilterHandlers h.1.symtab signals
    (runHandlers shell p signals i hs).ret =
        (sel.map fun h => (kbbiRun shell (p ++ [.handler h.2]) h.1).ret).sum ∧
      (runHandlers shell p signals i hs).trace = sel.flatMap (handlerTrace shell p) ∧
      ((runHandlers shell p signals i hs).done = true ↔ sel ≠ []) := by
  induction hs generalizing i with
  | nil => simp [runHandlers]
  | cons h hs ih =>
    obtain ⟨hret, htrace, hdone⟩ := ih (i + 1)
    by_cases hm : nodeFilterHandlers h.symtab signals = true
    · simp [runHandlers, hm, hret, htrace, handlerTrace]
    · have hsel : ((h :: hs).zipIdx i).filter (fun h => nodeFilterHandlers h.1.symtab signals) =
          (hs.zipIdx (i + 1)).filter fun h => nodeFilterHandlers h.1.symtab signals := by
        rw [List.zipIdx_cons, List.filter_cons_of_neg (by exact hm)]
      rw [hsel, runHandlers, if_neg hm]
      exact ⟨hret, htrace, hdone⟩

theorem handlersStatus_eq (signals : List CStr) (i : ℕ) (hs : List KbTree) :
    handlersStatus shell p signals i hs =
      (((hs.zipIdx i).filter fun h => nodeFilterHandlers h.1.symtab signals).map
        (handlerStatus shell p)).sum := by
  induction hs generalizing i with
  | nil => simp [handlersStatus]
  | cons h hs ih =>
    by_cases hm : nodeFilterHandlers h.symtab signals = true
    · simp [handlersStatus, hm, ih, handlerStatus]
    · simp [handlersStatus, hm, ih]

/-- Unwinding rolls back the jobs started, the last one first. -/
theorem unwindJobs_trace (ret : CInt) (pre : List KbTree) (job : KbTree) (post : List KbTree) :
    (unwindJobs shell p (pre ++ job :: post) ret pre.length).trace =
      (pre ++ [job]).zipIdx.reverse.flatMap (rollbackTrace shell p) := by
  have hone : ∀ (pre : List KbTree) (job : KbTree) (post : List KbTree),
      (rollbackJob shell p (pre ++ job :: post) ret pre.length).trace =
        rollbackTrace shell p (job, pre.length) := by
    intro pre job post
    simp [rollbackJob, rollbackTrace]
  induction pre using List.reverseRecOn generalizing job post with
  | nil => simpa [unwindJobs] using hone [] job post
  | append_singleton pre last ih =>
    have hlen : (pre ++ [last]).length = pre.length + 1 := by simp
    have hsplit : pre ++ [last] ++ job :: post = pre ++ last :: (job :: post) := by simp
    have hhead := hone (pre ++ [last]) job post
    rw [hlen] at hhead ⊢
    rw [unwindJobs, hhead, hsplit, ih last (job :: post)]
    simp [List.zipIdx_append]

/-- The loop over the jobs: all succeed, or the first that fails is rolled back with those before
it. -/
theorem runJobs_eq (all : List KbTree) (pre jobs : List KbTree) (hall : all = pre ++ jobs)
    (hret : ∀ j ∈ jobs.zipIdx pre.length,
      (kbbiRun shell (p ++ [.job j.2]) j.1).ret = jobStatus shell p j) :
    let r := runJobs shell p all pre.length jobs
    (r.done = true ↔ jobs ≠ []) ∧
      (((∀ j ∈ jobs.zipIdx pre.length, jobStatus shell p j = 0) ∧ r.ret = 0 ∧
          r.trace = (jobs.zipIdx pre.length).flatMap (jobTrace shell p)) ∨
        ∃ mid job post, jobs = mid ++ job :: post ∧
          (∀ j ∈ mid.zipIdx pre.length, jobStatus shell p j = 0) ∧
          jobStatus shell p (job, pre.length + mid.length) ≠ 0 ∧
          r.ret = jobStatus shell p (job, pre.length + mid.length) ∧
          r.trace = ((mid ++ [job]).zipIdx pre.length).flatMap (jobTrace shell p) ++
            (pre ++ mid ++ [job]).zipIdx.reverse.flatMap (rollbackTrace shell p)) := by
  induction jobs generalizing pre with
  | nil => simp [runJobs]
  | cons job jobs ih =>
    have hjob : (kbbiRun shell (p ++ [.job pre.length]) job).ret =
        jobStatus shell p (job, pre.length) := hret (job, pre.length) (by simp)
    by_cases hfail : jobStatus shell p (job, pre.length) ≠ 0
    · have hrun : runJobs shell p all pre.length (job :: jobs) =
          let rb := unwindJobs shell p all (jobStatus shell p (job, pre.length)) pre.length
          let r := kbbiRun shell (p ++ [.job pre.length]) job
          { ret := jobStatus shell p (job, pre.length), nerrors := r.nerrors + rb.nerrors,
            nwarnings := r.nwarnings + 1 + rb.nwarnings, trace := r.trace ++ rb.trace,
            done := true } := by
        rw [runJobs]
        simp only [hjob]
        rw [if_pos hfail]
      rw [hrun, hall]
      refine ⟨by simp, .inr ⟨[], job, jobs, rfl, by simp, by simpa using hfail, ?_⟩⟩
      simp [unwindJobs_trace, jobTrace]
    · have hlen : (pre ++ [job]).length = pre.length + 1 := by simp
      obtain ⟨_, hrest⟩ := ih (pre ++ [job]) (by simp [hall]) fun j hj =>
        hret j (by rw [hlen] at hj; simp [hj])
      have hzero : jobStatus shell p (job, pre.length) = 0 := not_not.mp hfail
      rw [hlen] at hrest
      refine ⟨by simp [runJobs, hjob, hzero], ?_⟩
      rcases hrest with ⟨hok, hr, htrace⟩ | ⟨mid, bad, post, rfl, hok, hbad, hr, htrace⟩
      · refine .inl ⟨?_, ?_, ?_⟩
        · simpa [hzero] using hok
        · simp [runJobs, hjob, hzero, hr]
        · simp [runJobs, hjob, hzero, htrace, jobTrace]
      · have hidx : pre.length + 1 + mid.length = pre.length + (job :: mid).length := by
          simp only [List.length_cons]
          omega
        rw [hidx] at hbad hr
        refine .inr ⟨job :: mid, bad, post, rfl, ?_, hbad, ?_, ?_⟩
        · simpa [hzero] using hok
        · simp [runJobs, hjob, hzero, hr]
        · simp [runJobs, hjob, hzero, htrace, jobTrace]

theorem jobsStatus_eq (i : ℕ) (jobs : List KbTree) :
    ((∀ j ∈ jobs.zipIdx i, jobStatus shell p j = 0) → jobsStatus shell p i jobs = 0) ∧
      ∀ mid job post, jobs = mid ++ job :: post → (∀ j ∈ mid.zipIdx i, jobStatus shell p j = 0) →
        jobStatus shell p (job, i + mid.length) ≠ 0 →
        jobsStatus shell p i jobs = jobStatus shell p (job, i + mid.length) := by
  induction jobs generalizing i with
  | nil => simp [jobsStatus]
  | cons job jobs ih =>
    obtain ⟨hok, hfail⟩ := ih (i + 1)
    refine ⟨fun h => ?_, fun mid bad post heq hmid hbad => ?_⟩
    · obtain ⟨hzero, hrest⟩ := List.forall_mem_cons.mp (by simpa only [List.zipIdx_cons] using h)
      have hzero' : exitStatus shell (p ++ [.job i]) job = 0 := hzero
      simpa [jobsStatus, hzero'] using hok hrest
    · cases mid with
      | nil =>
        obtain ⟨rfl, rfl⟩ := List.cons.inj heq
        have hbad' : exitStatus shell (p ++ [.job i]) job ≠ 0 := hbad
        rw [jobsStatus, if_pos hbad']
        rfl
      | cons k mid =>
        obtain ⟨rfl, rfl⟩ := List.cons.inj heq
        obtain ⟨hzero, hrest⟩ := List.forall_mem_cons.mp (by simpa only [List.zipIdx_cons] using hmid)
        have hzero' : exitStatus shell (p ++ [.job i]) job = 0 := hzero
        have hidx : i + 1 + mid.length = i + (job :: mid).length := by
          simp only [List.length_cons]
          omega
        rw [← hidx] at hbad ⊢
        simpa [jobsStatus, hzero'] using hfail mid bad post rfl hrest hbad

/-! ### A whole node -/

theorem runCommands_commandsOf {st : Symtab} (hsrc : kbnodeGetSrcdef st ≠ none) :
    runCommands shell p st 0 (kbnodeGetvalueAll st kbnodeKeyExec) 0 =
      (orAll ((commandsOf st).map fun c => shell p kbnodeKeyExec c.2),
        (commandsOf st).map (commandEvent shell p)) := by
  rw [runCommands_eq shell p hsrc]
  simp [commandsOf]

/-- The node returns what `exitStatus` says, and its events are those of one of the ways to run it. -/
def RunAsSpecified (t : KbTree) : Prop :=
  (kbbiRun shell p t).ret = exitStatus shell p t ∧
    ∃ mid, NodeRan shell p t (exitStatus shell p t) mid ∧
      (kbbiRun shell p t).trace = .start p :: mid ++ [.finish p (exitStatus shell p t)]

theorem kbbiRun_eq_finishNode {t : KbTree} (hsrc : kbnodeGetSrcdef t.symtab ≠ none) :
    kbbiRun shell p t = finishNode p t.symtab shell
      (runHandlers shell p (kbnodeGetvalueAll t.symtab kbnodeKeyEmits) 0 t.handlers)
      (runJobs shell p t.jobs 0 t.jobs) := by
  obtain ⟨type, st, jobs, handlers⟩ := t
  obtain ⟨d, hd⟩ := Option.ne_none_iff_exists'.mp hsrc
  have hst : kbnodeGetSrcdef st = some d := hd
  simp only [kbbiRun, hst]
  rfl

theorem exitStatus_of_srcdef {t : KbTree} (hsrc : kbnodeGetSrcdef t.symtab ≠ none) :
    exitStatus shell p t =
      if matching t ≠ [] then ((matching t).map (handlerStatus shell p)).sum
      else if commandsOf t.symtab ≠ [] then
        orAll ((commandsOf t.symtab).map fun c => shell p kbnodeKeyExec c.2)
      else jobsStatus shell p 0 t.jobs := by
  obtain ⟨type, st, jobs, handlers⟩ := t
  have hsum : handlersStatus shell p (kbnodeGetvalueAll st kbnodeKeyEmits) 0 handlers =
      ((matching (.node type st jobs handlers)).map (handlerStatus shell p)).sum :=
    handlersStatus_eq shell p _ 0 handlers
  simp only [KbTree.symtab_node, KbTree.jobs_node] at hsrc ⊢
  rw [exitStatus, if_neg hsrc, hsum]
  rfl

theorem runAsSpecified_handlers {t : KbTree} (hsrc : kbnodeGetSrcdef t.symtab ≠ none)
    (hm : matching t ≠ []) (hhandlers : ∀ h ∈ t.handlers.zipIdx,
      (kbbiRun shell (p ++ [.handler h.2]) h.1).ret = handlerStatus shell p h) :
    RunAsSpecified shell p t := by
  obtain ⟨hret, htrace, hdone⟩ :=
    runHandlers_eq shell p (kbnodeGetvalueAll t.symtab kbnodeKeyEmits) 0 t.handlers
  have hstatus : (runHandlers shell p (kbnodeGetvalueAll t.symtab kbnodeKeyEmits) 0 t.handlers).ret =
      ((matching t).map (handlerStatus shell p)).sum := by
    rw [hret]
    exact congrArg List.sum (List.map_congr_left fun h hh =>
      hhandlers h (List.mem_of_mem_filter hh))
  rw [RunAsSpecified, kbbiRun_eq_finishNode shell p hsrc, exitStatus_of_srcdef shell p hsrc,
    if_pos hm, finishNode, if_pos (hdone.mpr hm)]
  refine ⟨hstatus, _, .handlers hsrc hm, ?_⟩
  simp only [htrace, hstatus]
  rfl

/-- Without handlers the commands are run, and without commands the jobs. -/
theorem runAsSpecified_alone {t : KbTree} (hsrc : kbnodeGetSrcdef t.symtab ≠ none)
    (hm : matching t = []) (hjobs : ∀ j ∈ t.jobs.zipIdx,
      (kbbiRun shell (p ++ [.job j.2]) j.1).ret = jobStatus shell p j) :
    RunAsSpecified shell p t := by
  obtain ⟨hhret, -, hhdone⟩ :=
    runHandlers_eq shell p (kbnodeGetvalueAll t.symtab kbnodeKeyEmits) 0 t.handlers
  have hnone := congrArg (fun sel : List (KbTree × ℕ) =>
    (sel.map fun h => (kbbiRun shell (p ++ [.handler h.2]) h.1).ret).sum) hm
  have hdone : (runHandlers shell p (kbnodeGetvalueAll t.symtab kbnodeKeyEmits) 0 t.handlers).done =
      false := by
    rw [← Bool.not_eq_true]
    exact fun h => hhdone.mp h hm
  rw [RunAsSpecified, kbbiRun_eq_finishNode shell p hsrc, exitStatus_of_srcdef shell p hsrc,
    if_neg (not_not.mpr hm), finishNode, hdone, hhret.trans hnone]
  simp only [Bool.false_eq_true, if_false, List.map_nil, List.sum_nil,
    runCommands_commandsOf shell p hsrc]
  by_cases hc : commandsOf t.symtab = []
  · obtain ⟨hjdone, hjran⟩ := runJobs_eq shell p t.jobs [] t.jobs rfl hjobs
    simp only [List.length_nil, Nat.zero_add, List.nil_append] at hjdone hjran
    obtain ⟨hjok, hjfail⟩ := jobsStatus_eq shell p 0 t.jobs
    rw [if_neg (not_not.mpr hc), if_neg (by simp [hc])]
    by_cases hj : t.jobs = []
    · rw [if_neg fun h => hjdone.mp h hj, hjok (by simp [hj])]
      exact ⟨by simp [hc, orAll], _, .nothing hsrc hm hc hj, by simp [hc, orAll]⟩
    · rw [if_pos (hjdone.mpr hj)]
      rcases hjran with ⟨hok, hret, htrace⟩ | ⟨pre, job, post, heq, hok, hbad, hret, htrace⟩
      · rw [hjok hok]
        exact ⟨hret, _, .jobs hsrc hm hc hj hok, by simp only [htrace, hret]⟩
      · rw [hjfail pre job post heq hok (by simpa using hbad), Nat.zero_add]
        exact ⟨hret, _, .jobFailed hsrc hm hc heq hok hbad, by simp only [htrace, hret]⟩
  · rw [if_pos hc, if_pos (by simpa using hc)]
    exact ⟨rfl, _, .commands hsrc hm hc, rfl⟩

/-- A node whose children have the status that `exitStatus` says. -/
theorem kbbiRun_node (t : KbTree)
    (hhandlers : ∀ h ∈ t.handlers.zipIdx,
      (kbbiRun shell (p ++ [.handler h.2]) h.1).ret = handlerStatus shell p h)
    (hjobs : ∀ j ∈ t.jobs.zipIdx,
      (kbbiRun shell (p ++ [.job j.2]) j.1).ret = jobStatus shell p j) :
    RunAsSpecified shell p t := by
  by_cases hsrc : kbnodeGetSrcdef t.symtab = none
  · obtain ⟨type, st, jobs, handlers⟩ := t
    have hst : kbnodeGetSrcdef st = none := hsrc
    simp only [RunAsSpecified, kbbiRun, exitStatus, hst, if_pos]
    exact ⟨trivial, [], .noSrcdef hsrc, rfl⟩
  · by_cases hm : matching t = []
    · exact runAsSpecified_alone shell p hsrc hm hjobs
    · exact runAsSpecified_handlers shell p hsrc hm hhandlers

theorem mem_zipIdx_left {α : Type} {l pre rest : List α} (h : l = pre ++ rest) {k : α × ℕ}
    (hk : k ∈ l.zipIdx) (hlt : k.2 < pre.length) : k ∈ pre.zipIdx := by
  rw [List.mem_zipIdx_iff_getElem?] at hk ⊢
  rwa [h, List.getElem?_append_left hlt] at hk

/-- The status of a run is what the exit codes amount to. -/
theorem exitStatus_eq (t : KbTree) : (kbbiRun shell p t).ret = exitStatus shell p t := by
  induction t using KbTree.inductionOn generalizing p with
  | node type st jobs handlers hjobs hhandlers =>
    exact (kbbiRun_node shell p (.node type st jobs handlers)
      (fun h hh => hhandlers h.1 (List.fst_mem_of_mem_zipIdx hh) _)
      (fun j hj => hjobs j.1 (List.fst_mem_of_mem_zipIdx hj) _)).1

/-- What `kbbi_run` does at a node, from what it does at its children. -/
theorem kbbiRun_spec (t : KbTree) :
    ∃ mid, NodeRan shell p t (exitStatus shell p t) mid ∧
      (kbbiRun shell p t).trace = .start p :: mid ++ [.finish p (exitStatus shell p t)] :=
  (kbbiRun_node shell p t (fun _ _ => exitStatus_eq shell _ _) fun _ _ => exitStatus_eq shell _ _).2

end Kubeka
