import Kubeka.Model.Processes
import Kubeka.Run.Rollback

/-!
# Processes of a run

The program of a run makes the calls that the trace of the run shows, in the
same order, and every place of the run is met once. As long as no child comes
back from a call there is one process, and every command and action is executed
once; a child that does come back goes on with the rest of the run.
-/

namespace Kubeka

open Interaction

/-! ### The program makes the calls of the run -/

/-- What is executed, by an event. -/
def Event.executed : Event → Option (Path × CStr × ℕ × CStr)
  | .command p i cmd _ => some (p, kbnodeKeyExec, i, cmd)
  | .action p i cmd _ => some (p, kbnodeKeyRollback, i, cmd)
  | _ => none

def Call.executed (c : Call) : Path × CStr × ℕ × CStr := (c.path, c.key, c.index, c.command)

variable (shell : Shell) (answer : Call → CInt)

theorem actionsProg_run (p : Path) (st : Symtab) (i : ℕ) (actions : List CStr) :
    ((actionsProg p st i actions).run answer).2.map Call.executed =
      (actions.zipIdx i).map fun a => (p, kbnodeKeyRollback, a.2, a.1) := by
  induction actions generalizing i with
  | nil => rfl
  | cons a actions ih => simp [actionsProg, ih, Call.executed]

theorem kbbiRollbackProg_run (p : Path) (st : Symtab) :
    ((kbbiRollbackProg p st).run answer).2.map Call.executed =
      (kbbiRollback shell p st).trace.filterMap Event.executed := by
  cases hsrc : kbnodeGetSrcdef st with
  | none => simp [kbbiRollbackProg, kbbiRollback, hsrc, Event.executed]
  | some srcdef =>
    simp only [kbbiRollbackProg, kbbiRollback, hsrc]
    rcases kbnodeGetvalueAll st kbnodeKeyRollback with _ | ⟨_ | ⟨c, a⟩, actions⟩
    · rfl
    · rfl
    · simp only
      rw [actionsProg_run, List.filterMap_cons_none rfl, List.mapIdx_eq_zipIdx_map,
        List.filterMap_map, ← List.filterMap_eq_map]
      rfl

theorem rollbackJobProg_run (p : Path) (jobs : List KbTree) (ret : CInt) (j : ℕ) :
    ((rollbackJobProg p jobs j).run answer).2.map Call.executed =
      (rollbackJob shell p jobs ret j).trace.filterMap Event.executed := by
  rw [rollbackJobProg, rollbackJob]
  cases jobs[j]? with
  | none => rfl
  | some job => exact kbbiRollbackProg_run shell answer _ _

theorem unwindJobsProg_run (p : Path) (jobs : List KbTree) (ret : CInt) (j : ℕ) :
    ((unwindJobsProg p jobs j).run answer).2.map Call.executed =
      (unwindJobs shell p jobs ret j).trace.filterMap Event.executed := by
  induction j with
  | zero => exact rollbackJobProg_run shell answer p jobs ret 0
  | succ j ih =>
    simp only [unwindJobsProg, unwindJobs, Prog.run_bind, List.map_append, List.filterMap_append, ih,
      rollbackJobProg_run shell answer p jobs ret]

/-- The results of the commands of a node are those of its calls. -/
def AnswersAt (shell : Shell) (answer : Call → CInt) (p : Path) (st : Symtab) : Prop :=
  ∀ key i cmd, (kbnodeGetvalueAll st key)[i]? = some cmd →
    kbexecShell st (shell p key i) = answer ⟨p, key, i, st, cmd⟩

theorem commandsProg_run {p : Path} {st : Symtab} (i : ℕ) (cmds : List CStr) (ret : CInt)
    (done : Bool) (h : ∀ k ∈ cmds.zipIdx i,
      kbexecShell st (shell p kbnodeKeyExec k.2) = answer ⟨p, kbnodeKeyExec, k.2, st, k.1⟩) :
    let r := runCommands shell p st i cmds ret
    ((commandsProg p st i cmds ret done).run answer).1 = (r.1, done || decide (r.2 ≠ [])) ∧
      ((commandsProg p st i cmds ret done).run answer).2.map Call.executed =
        r.2.filterMap Event.executed := by
  induction cmds generalizing i ret done with
  | nil => simp [commandsProg, runCommands]
  | cons cmd cmds ih =>
    obtain ⟨hcmd, hcmds⟩ := List.forall_mem_cons.mp (by simpa only [List.zipIdx_cons] using h)
    by_cases hnil : cmd = []
    · simp [commandsProg, runCommands, hnil]
    · obtain ⟨hret, hcalls⟩ := ih (i + 1) (ret ||| answer ⟨p, kbnodeKeyExec, i, st, cmd⟩) true hcmds
      have hcmd' : kbexecShell st (shell p kbnodeKeyExec i) = answer ⟨p, kbnodeKeyExec, i, st, cmd⟩ :=
        hcmd
      rw [commandsProg, runCommands, if_neg hnil, if_neg hnil, hcmd']
      refine ⟨?_, ?_⟩
      · simp [hret]
      · simp [hcalls, Call.executed, Event.executed]

/-- The program of a node returns what the run returns and makes its calls. -/
def Follows (shell : Shell) (answer : Call → CInt) (p : Path) (t : KbTree) : Prop :=
  ((kbbiRunProg p t).run answer).1 = (kbbiRun shell p t).ret ∧
    ((kbbiRunProg p t).run answer).2.map Call.executed =
      (kbbiRun shell p t).trace.filterMap Event.executed

theorem handlersProg_run {p : Path} (signals : List CStr) (i : ℕ) (hs : List KbTree) (ret : CInt)
    (done : Bool) (h : ∀ k ∈ hs.zipIdx i, Follows shell answer (p ++ [.handler k.2]) k.1) :
    let r := runHandlers shell p signals i hs
    ((handlersProg p signals i hs ret done).run answer).1 = (ret + r.ret, done || r.done) ∧
      ((handlersProg p signals i hs ret done).run answer).2.map Call.executed =
        r.trace.filterMap Event.executed := by
  induction hs generalizing i ret done with
  | nil => simp [handlersProg, runHandlers]
  | cons c hs ih =>
    obtain ⟨⟨hret, hcalls⟩, hrest⟩ :=
      List.forall_mem_cons.mp (by simpa only [List.zipIdx_cons] using h)
    rw [handlersProg, runHandlers]
    split
    · obtain ⟨hret', hcalls'⟩ := ih (i + 1) (ret + (kbbiRun shell (p ++ [.handler i]) c).ret) true hrest
      simp only [Prog.run_bind, hret, hret', List.map_append, hcalls, hcalls',
        List.filterMap_append]
      simp [BitVec.add_assoc]
    · exact ih (i + 1) ret done hrest

theorem runHandlers_of_not_done {p : Path} {signals : List CStr} {i : ℕ} {hs : List KbTree}
    (h : (runHandlers shell p signals i hs).done ≠ true) :
    (runHandlers shell p signals i hs).trace = [] := by
  obtain ⟨-, htrace, hdone⟩ := runHandlers_eq shell p signals i hs
  rw [htrace, not_not.mp fun hsel => h (hdone.mpr hsel), List.flatMap_nil]

theorem runJobs_of_not_done {p : Path} {all jobs : List KbTree} {i : ℕ}
    (h : (runJobs shell p all i jobs).done ≠ true) :
    (runJobs shell p all i jobs).ret = 0 ∧ (runJobs shell p all i jobs).trace = [] := by
  cases jobs with
  | nil => simp [runJobs]
  | cons job jobs =>
    refine absurd ?_ h
    rw [runJobs]
    split <;> rfl

theorem jobsProg_run {p : Path} (all : List KbTree) (i : ℕ) (jobs : List KbTree) (ret : CInt)
    (h : ∀ k ∈ jobs.zipIdx i, Follows shell answer (p ++ [.job k.2]) k.1) :
    let r := runJobs shell p all i jobs
    ((jobsProg p all i jobs ret).run answer).1 = (if r.done then r.ret else ret) ∧
      ((jobsProg p all i jobs ret).run answer).2.map Call.executed =
        r.trace.filterMap Event.executed := by
  induction jobs generalizing i ret with
  | nil => simp [jobsProg, runJobs]
  | cons job jobs ih =>
    obtain ⟨⟨hret, hcalls⟩, hrest⟩ :=
      List.forall_mem_cons.mp (by simpa only [List.zipIdx_cons] using h)
    rw [jobsProg, runJobs]
    simp only [Prog.run_bind, hret, List.map_append, hcalls]
    by_cases hfail : (kbbiRun shell (p ++ [.job i]) job).ret ≠ 0
    · simp only [if_pos hfail, Prog.run_bind, Prog.run_done, List.append_nil, List.filterMap_append,
        unwindJobsProg_run shell answer p all (kbbiRun shell (p ++ [.job i]) job).ret i, if_true]
      exact ⟨trivial, trivial⟩
    · obtain ⟨hret', hcalls'⟩ := ih (i + 1) (kbbiRun shell (p ++ [.job i]) job).ret hrest
      simp only [if_neg hfail, hret', hcalls', List.filterMap_append, if_true, and_true]
      split
      · rfl
      · next hdone => rw [(runJobs_of_not_done shell hdone).1, not_not.mp hfail]

variable {shell answer}

/-! ### A whole run -/

theorem at?_snoc {t n c : KbTree} {up up' : List Symtab} {p : Path} {s : Step}
    (h : t.at? up p = some (up', n)) (hc : n.child? s = some c) :
    t.at? up (p ++ [s]) = some (n.symtab :: up', c) := by
  induction p generalizing t up with
  | nil =>
    obtain ⟨rfl, rfl⟩ := Prod.mk.inj (Option.some.inj h)
    simp [KbTree.at?_cons, hc]
  | cons s' p ih =>
    rw [KbTree.at?_cons] at h
    rw [List.cons_append, KbTree.at?_cons]
    obtain ⟨d, hd, hrest⟩ := Option.bind_eq_some_iff.mp h
    rw [hd]
    exact ih hrest

/-- Every node of the tree has the results of its commands from the calls. -/
def Agrees (shell : Shell) (answer : Call → CInt) (t : KbTree) : Prop :=
  ∀ p up n, t.at? [] p = some (up, n) → AnswersAt shell answer p n.symtab

theorem executed_node (p : Path) (mid : List Event) (ret : CInt) :
    (Event.start p :: mid ++ [Event.finish p ret]).filterMap Event.executed =
      mid.filterMap Event.executed := by
  rw [List.cons_append, List.filterMap_cons_none rfl, List.filterMap_append,
    List.filterMap_cons_none rfl, List.filterMap_nil, List.append_nil]

theorem Follows.of_agrees {root : KbTree} (hagrees : Agrees shell answer root) (p : Path)
    (t : KbTree) {up : List Symtab} (hat : root.at? [] p = some (up, t)) :
    Follows shell answer p t := by
  induction t using KbTree.inductionOn generalizing p up with
  | node type st jobs handlers hjobs hhandlers =>
    have hchild : ∀ s c, (KbTree.node type st jobs handlers).child? s = some c →
        root.at? [] (p ++ [s]) = some (st :: up, c) := fun s c hc => at?_snoc hat hc
    cases hsrc : kbnodeGetSrcdef st with
    | none => simp [Follows, kbbiRunProg, kbbiRun, hsrc, Event.executed]
    | some srcdef =>
      obtain ⟨hhret, hhcalls⟩ := handlersProg_run shell answer
        (kbnodeGetvalueAll st kbnodeKeyEmits) 0 handlers 0 false fun k hk =>
          hhandlers k.1 (List.fst_mem_of_mem_zipIdx hk) _
            (hchild (.handler k.2) k.1 (List.mem_zipIdx_iff_getElem?.mp hk))
      have hjob : ∀ k ∈ jobs.zipIdx, Follows shell answer (p ++ [.job k.2]) k.1 := fun k hk =>
        hjobs k.1 (List.fst_mem_of_mem_zipIdx hk) _
          (hchild (.job k.2) k.1 (List.mem_zipIdx_iff_getElem?.mp hk))
      have hexec : ∀ k ∈ (kbnodeGetvalueAll st kbnodeKeyExec).zipIdx,
          kbexecShell st (shell p kbnodeKeyExec k.2) = answer ⟨p, kbnodeKeyExec, k.2, st, k.1⟩ :=
        fun k hk => hagrees p up _ hat _ _ _ (List.mem_zipIdx_iff_getElem?.mp hk)
      have hzero : ∀ r : CInt, 0 + r = r := BitVec.zero_add
      simp only [Follows, kbbiRunProg, kbbiRun, hsrc, Prog.run_bind, hhret, hhcalls, finishNode,
        hzero, Bool.false_or, List.map_append]
      generalize hH : runHandlers shell p (kbnodeGetvalueAll st kbnodeKeyEmits) 0 handlers = H
      obtain ⟨hcret, hccalls⟩ := commandsProg_run shell answer 0 _ H.ret false hexec
      by_cases hdone : H.done = true
      · simp only [if_pos hdone, Prog.run_done, List.map_nil, List.append_nil, executed_node]
        exact ⟨trivial, trivial⟩
      · obtain ⟨hjret, hjcalls⟩ := jobsProg_run shell answer jobs 0 jobs
          (runCommands shell p st 0 (kbnodeGetvalueAll st kbnodeKeyExec) H.ret).1 hjob
        have hnone : H.trace = [] := by
          rw [← hH] at hdone ⊢
          exact runHandlers_of_not_done shell hdone
        simp only [if_neg hdone, Prog.run_bind, hcret, List.map_append, hccalls, Bool.false_or,
          decide_eq_true_eq, hnone, List.filterMap_nil, List.nil_append]
        by_cases hcmds : (runCommands shell p st 0 (kbnodeGetvalueAll st kbnodeKeyExec) H.ret).2 ≠ []
        · simp only [if_pos hcmds, Prog.run_done, List.map_nil, List.append_nil, executed_node]
          exact ⟨trivial, trivial⟩
        · simp only [if_neg hcmds, hjret, hjcalls]
          rw [not_not.mp hcmds, List.filterMap_nil, List.nil_append]
          split
          · exact ⟨rfl, (executed_node p _ _).symm⟩
          · next hj => exact ⟨rfl, by rw [(runJobs_of_not_done shell hj).2]; rfl⟩

theorem firstShell_agrees (os : System) (t : KbTree) :
    Agrees (firstShell os t) (fun c => (Call.answers os [] c).parent) t := by
  intro p up n hat key i cmd hcmd
  have hshell : firstShell os t p key i =
      (kbexecShellRun (os [] p key i) n.symtab cmd).ret := by
    simp only [firstShell, hat, List.getD_eq_getElem?_getD, hcmd, Option.getD_some]
  rw [hshell, kbexecShell_ret]
  rfl

/-- The first process executes what the trace of the run shows. -/
theorem firstCalls_executed (os : System) (t : KbTree) : (firstCalls os t).map Call.executed =
    (kbbiRun (firstShell os t) [] t).trace.filterMap Event.executed :=
  (Follows.of_agrees (firstShell_agrees os t) [] t rfl).2

/-! ### Every place is met once -/

def Event.place (e : Event) : Option (Path × CStr × ℕ) :=
  e.executed.map fun x => (x.1, x.2.1, x.2.2.1)

theorem keyExec_ne_keyRollback : kbnodeKeyExec ≠ kbnodeKeyRollback := by decide +kernel

/-- Of a place in a run there is one event. -/
theorem place_unique {p : Path} {t : KbTree} {e e' : Event} (he : e ∈ (kbbiRun shell p t).trace)
    (he' : e' ∈ (kbbiRun shell p t).trace) {place : Path × CStr × ℕ} (hp : e.place = some place)
    (hp' : e'.place = some place) : e = e' := by
  have hne := keyExec_ne_keyRollback
  cases e with
  | command q i cmd rc =>
    obtain rfl : (q, kbnodeKeyExec, i) = place := Option.some.inj hp
    cases e' with
    | command q' i' cmd' rc' =>
      obtain ⟨rfl, -, rfl⟩ : q' = q ∧ kbnodeKeyExec = kbnodeKeyExec ∧ i' = i := by
        simpa [Event.place, Event.executed] using hp'
      obtain ⟨n, hn, -, -, hmem, rfl⟩ := command_mem_trace.mp he
      obtain ⟨n', hn', -, -, hmem', rfl⟩ := command_mem_trace.mp he'
      obtain rfl := hn.unique hn'
      have hcmd := List.mem_zipIdx_iff_getElem?.mp hmem
      rw [List.mem_zipIdx_iff_getElem?.mp hmem'] at hcmd
      obtain rfl : cmd' = cmd := Option.some.inj hcmd
      rfl
    | action q' i' cmd' rc' => simp [Event.place, Event.executed, hne.symm] at hp'
    | _ => simp [Event.place, Event.executed] at hp'
  | action q i cmd rc =>
    obtain rfl : (q, kbnodeKeyRollback, i) = place := Option.some.inj hp
    cases e' with
    | action q' i' cmd' rc' =>
      obtain ⟨rfl, -, rfl⟩ : q' = q ∧ kbnodeKeyRollback = kbnodeKeyRollback ∧ i' = i := by
        simpa [Event.place, Event.executed] using hp'
      obtain ⟨r, m, k, c, hm, hc, hq, -, hmem⟩ := Visited.of_action he
      obtain ⟨r', m', k', c', hm', hc', hq', -, hmem'⟩ := Visited.of_action he'
      have hvisit : Visited shell p t q' c := hq ▸ hm.trans (.child hc .here)
      obtain rfl := hvisit.unique (hq' ▸ hm'.trans (.child hc' .here))
      obtain ⟨j, hj, heq⟩ := List.mem_mapIdx.mp hmem
      obtain ⟨j', hj', heq'⟩ := List.mem_mapIdx.mp hmem'
      obtain ⟨-, rfl, rfl, rfl⟩ := Event.action.inj heq
      obtain ⟨-, rfl, rfl, rfl⟩ := Event.action.inj heq'
      rfl
    | command q' i' cmd' rc' => simp [Event.place, Event.executed, hne] at hp'
    | _ => simp [Event.place, Event.executed] at hp'
  | _ => simp [Event.place, Event.executed] at hp

theorem firstCalls_places_nodup (os : System) (t : KbTree) :
    ((firstCalls os t).map Call.place).Nodup := by
  have hplaces : (firstCalls os t).map Call.place =
      (kbbiRun (firstShell os t) [] t).trace.filterMap Event.place := by
    have h := congrArg (List.map fun x => (x.1, x.2.1, x.2.2.1)) (firstCalls_executed os t)
    rw [List.map_map, List.map_filterMap] at h
    exact h
  rw [hplaces, List.Nodup, List.pairwise_filterMap]
  refine (trace_nodup _ _ _).imp_of_mem fun he he' hne place hp place' hp' heq => ?_
  subst heq
  exact hne (place_unique he he' hp hp')

/-! ### One process -/

/-- No child returns from a call of `kbexec_shell`, and every place of the run is met by one
process, once. -/
def OneProcess (os : System) (t : KbTree) : Prop :=
  (∀ c ∈ processCalls os t, (c.2.run os c.1).childRet = none) ∧
    ((processCalls os t).map fun c => c.2.place).Nodup

/-- There is one process exactly when in every call of the first one that forks the child comes to
its command. -/
theorem kbbiRun_oneProcess_iff (os : System) (t : KbTree) : OneProcess os t ↔
    ∀ c ∈ firstCalls os t, Forks (c.syscalls os []) c.symtab → ChildStarts (c.syscalls os []) c.symtab := by
  have hchild : ∀ c : Call, (c.run os []).childRet = none ↔
      (Forks (c.syscalls os []) c.symtab → ChildStarts (c.syscalls os []) c.symtab) := by
    intro c
    rw [← not_iff_not, Classical.not_imp]
    exact kbexecShellRun_childRet _ _ _
  constructor
  · rintro ⟨hnone, -⟩ c hc
    exact (hchild c).mp (hnone ([], c) (Prog.mem_calls_of_run hc))
  · intro h
    have hnone : ∀ c ∈ firstCalls os t, (Call.answers os [] c).child = none :=
      fun c hc => (hchild c).mpr (h c hc)
    have hcalls : processCalls os t = (firstCalls os t).map (([] : Pid), ·) :=
      Prog.calls_of_childless 0 hnone
    rw [OneProcess, hcalls]
    refine ⟨?_, ?_⟩
    · intro e he
      obtain ⟨c, hc, rfl⟩ := List.mem_map.mp he
      exact hnone c hc
    · rw [List.map_map]
      exact firstCalls_places_nodup os t

/-! ### A child that returns -/

/-- A root with two commands. -/
def twoCommands : KbTree :=
  .ofVars "ep".toList [(kbnodeKeyExec, ["a".toList, "b".toList])] [] []

/-- The child of the first command cannot enter its directory, and writes nothing. -/
def firstChdirFails : System := fun pid _ _ i =>
  if pid = [] ∧ i = 0 then { allSucceed with chdir := false, received := [] } else allSucceed

/-- The second command is executed by two processes, in two directories of their own. -/
theorem twoCommands_not_oneProcess :
    (processCalls firstChdirFails twoCommands).map (fun c => (c.1, c.2.command)) =
      [([], "a".toList), ([], "b".toList), ([0], "b".toList)] ∧
    ¬ OneProcess firstChdirFails twoCommands := by
  refine ⟨by decide +kernel, fun h => absurd h.2 (by decide +kernel)⟩

end Kubeka
