import Kubeka.Exec.Processes
import Kubeka.Exec.Result
import Kubeka.Library.PipedRuns
import Kubeka.Model.Threads

/-!
# Commands of several threads

However the threads, their children and the shells of the cleanup take turns,
each thread gets the status of each of its commands as if it were alone, and
none of them stops for good. What the threads do not have for themselves is the
time: a command may keep a thread waiting that has not started it.
-/

namespace Kubeka

open Interaction Piped

/-! ### What is written and read -/

theorem length_le_of_mem_copyLoop {inf buf w : List UInt8} (hbuf : buf.length < 32)
    (h : w ∈ copyLoop buf inf) : w.length ≤ 32 := by
  induction inf generalizing buf with
  | nil =>
    obtain rfl := List.mem_singleton.mp h
    omega
  | cons b inf ih =>
    rw [copyLoop] at h
    split_ifs at h with hfull
    · rcases List.mem_cons.mp h with rfl | h
      · simpa using hfull.le
      · exact ih (by simp) h
    · exact ih (by simpa using by omega) h

theorem length_le_of_mem_pipeWrites {acts : List Act} {w : List UInt8} (h : w ∈ pipeWrites acts) :
    w.length ≤ 32 := by
  obtain ⟨act, -, hw⟩ := List.mem_flatMap.mp h
  cases act with
  | write bytes => exact length_le_of_mem_copyLoop (by simp) hw
  | _ => contradiction

theorem pipeWrites_write (bytes : List UInt8) (acts : List Act) :
    pipeWrites (.write bytes :: acts) = copyLoop [] bytes ++ pipeWrites acts := rfl

theorem copyLoop_flatten (buf inf : List UInt8) : (copyLoop buf inf).flatten = buf ++ inf := by
  induction inf generalizing buf with
  | nil => simp [copyLoop]
  | cons b inf ih =>
    rw [copyLoop]
    split_ifs
    · simp [ih]
    · simp [ih]

theorem copyLoop_short {buf inf : List UInt8} (h : buf.length + inf.length < 32) :
    copyLoop buf inf = [buf ++ inf] := by
  induction inf generalizing buf with
  | nil => simp [copyLoop]
  | cons b inf ih =>
    rw [List.length_cons] at h
    rw [copyLoop, if_neg (by omega), ih (by rw [List.length_append, List.length_singleton]; omega),
      List.append_assoc, List.singleton_append]

theorem length_copyLoop (buf inf : List UInt8) (h : buf.length < 32) :
    (copyLoop buf inf).length = (buf.length + inf.length) / 32 + 1 := by
  induction inf generalizing buf with
  | nil =>
    rw [copyLoop, List.length_singleton, List.length_nil]
    omega
  | cons b inf ih =>
    rw [copyLoop]
    split_ifs with hfull
    · rw [List.length_cons, ih [] (by simp), List.length_nil, List.length_cons]
      omega
    · have hlen : (buf ++ [b]).length = buf.length + 1 := by simp
      rw [ih (buf ++ [b]) (by omega), hlen, List.length_cons]
      congr 2
      omega

/-- What a child writes that comes to its command. -/
theorem pipeWrites_spawnChild {sys : Syscalls} {uid : ℕ} (wdir command : CStr)
    (hstarts : (uid ≠ noId → sys.setuid = true) ∧ sys.chdir = true ∧ sys.popen = true) :
    pipeWrites (spawnChild sys wdir uid command).1 =
      copyLoop [] sys.output ++ [[0], bytesOf sys.status] := by
  obtain ⟨hsetuid, hchdir, hpopen⟩ := hstarts
  have hend : pipeWrites [.chdir wdir, .popen command, .write sys.output, .write [0],
      .write (bytesOf sys.status)] = copyLoop [] sys.output ++ [[0], bytesOf sys.status] := by
    have hstatus : copyLoop [] (bytesOf sys.status) = [bytesOf sys.status] :=
      copyLoop_short (by rw [length_bytesOf]; decide)
    have hskip : pipeWrites [.chdir wdir, .popen command, .write sys.output, .write [0],
        .write (bytesOf sys.status)] = pipeWrites [.write sys.output, .write [0],
          .write (bytesOf sys.status)] := rfl
    have hnul : copyLoop [] [0] = [[0]] := rfl
    rw [hskip, pipeWrites_write, pipeWrites_write, pipeWrites_write, hstatus, hnul]
    rfl
  unfold spawnChild
  by_cases huid : uid = noId
  · simpa [huid, hchdir, hpopen] using hend
  · simp only [huid, hchdir, hpopen, hsetuid huid, ne_eq, not_false_eq_true, if_true, true_and,
      not_true_eq_false, if_false]
    exact hend

/-- The child of a call that comes to its command. -/
theorem kbexecShellRun_child {sys : Syscalls} {st : Symtab} (hforks : Forks sys st)
    (hstarts : ChildStarts sys st) (command : CStr) :
    ∃ p, (kbexecShellRun sys st command).child = some p ∧
      pipeWrites p.acts = copyLoop [] sys.output ++ [[0], bytesOf sys.status] := by
  obtain ⟨hsrc, hids, hdir, hpipe, hfork⟩ := hforks
  obtain ⟨⟨id, fname, line⟩, hsrc⟩ := Option.ne_none_iff_exists'.mp hsrc
  obtain ⟨⟨uid, gid⟩, hids⟩ := Option.ne_none_iff_exists'.mp hids
  have hchild (wdir : CStr) (acts : List Act) (made : Option CStr) :
      ∃ p, (forkExec sys wdir uid command acts made).child = some p ∧
        pipeWrites p.acts = copyLoop [] sys.output ++ [[0], bytesOf sys.status] := by
    have hwrites := pipeWrites_spawnChild wdir command ⟨hstarts.1 uid gid hids, hstarts.2⟩
    have hrc := (spawnChild_spec sys wdir uid command).2
    rw [if_pos ⟨hstarts.1 uid gid hids, hstarts.2⟩] at hrc
    unfold forkExec
    rw [if_neg (not_not.mpr hpipe), if_neg (not_not.mpr hfork)]
    generalize spawnChild sys wdir uid command = r at hwrites hrc
    obtain ⟨acts, rc⟩ := r
    obtain rfl : rc = some sys.status := hrc
    exact ⟨_, rfl, hwrites⟩
  simp only [kbexecShellRun, hsrc, hids]
  by_cases hwdir : kbnodeGetvalueFirst st kbnodeKeyWdir = []
  · obtain ⟨hmkdtemp, hchown⟩ := hdir hwdir
    simp only [hwdir, hmkdtemp, hchown]
    exact hchild _ _ _
  · simp only [ne_eq, hwdir, not_false_eq_true, if_true]
    exact hchild _ _ _

theorem forkExec_failed {sys : Syscalls} {wdir : CStr} {uid : ℕ} {command : CStr}
    {acts : List Act} {made : Option CStr}
    (h : (forkExec sys wdir uid command acts made).child = none) :
    (forkExec sys wdir uid command acts made).ret = exitFailure := by
  unfold forkExec at h ⊢
  split_ifs at h ⊢
  · rfl
  · rfl

/-- Without a child the call fails. -/
theorem kbexecShellRun_failed {sys : Syscalls} {st : Symtab} {command : CStr}
    (h : (kbexecShellRun sys st command).child = none) :
    (kbexecShellRun sys st command).ret = exitFailure := by
  unfold kbexecShellRun at h ⊢
  cases hsrc : kbnodeGetSrcdef st with
  | none => rfl
  | some srcdef =>
    cases hids : execIds sys (kbnodeGetvalueFirst st kbnodeKeyWuser) with
    | none => rfl
    | some ids =>
      simp only [hsrc, hids] at h ⊢
      split_ifs at h ⊢
      · exact forkExec_failed h
      · exact forkExec_failed h
      · rfl
      · rfl

/-! ### Calls -/

namespace Host

variable (host : Host) (c : Call)

/-- The call makes a child. -/
def Makes : Prop := Forks (host.syscalls c) c.symtab

variable {host c}

theorem writes_of_makes (h : host.Makes c) : host.writes c =
    some (copyLoop [] (host.syscalls c).output ++ [[0], bytesOf (host.syscalls c).status]) := by
  have hforks : Forks { host.syscalls c with received := [] } c.symtab := h
  obtain ⟨p, hp, hwrites⟩ := kbexecShellRun_child hforks (host.starts c h) c.command
  rw [Host.writes, Host.run, hp, Option.map_some, hwrites]

theorem child_of_not_makes (h : ¬ host.Makes c) (bufs : List (List UInt8)) :
    (host.run c bufs).child = none := by
  by_cases hsrc : kbnodeGetSrcdef c.symtab = none
  · simp [Host.run, kbexecShellRun, hsrc]
  · exact (kbexecShellRun_spec _ hsrc c.command).noChild h

theorem writes_of_not_makes (h : ¬ host.Makes c) : host.writes c = none := by
  rw [Host.writes, child_of_not_makes h, Option.map_none]

theorem ret_of_makes (h : host.Makes c) (bufs : List (List UInt8)) :
    (host.run c bufs).ret = receivedStatus { host.syscalls c with received := bufs } := by
  have hforks : Forks { host.syscalls c with received := bufs } c.symtab := h
  exact kbexecShellRun_ret hforks c.command

theorem ret_of_not_makes (h : ¬ host.Makes c) (bufs : List (List UInt8)) :
    (host.run c bufs).ret = exitFailure :=
  kbexecShellRun_failed (child_of_not_makes h bufs)

/-- What the parent returns depends on the bytes that it reads. -/
theorem ret_congr {bufs bufs' : List (List UInt8)} (h : bufs.flatten = bufs'.flatten) :
    (host.run c bufs).ret = (host.run c bufs').ret := by
  by_cases hmakes : host.Makes c
  · rw [ret_of_makes hmakes, ret_of_makes hmakes, receivedStatus, receivedStatus, h]
  · rw [ret_of_not_makes hmakes, ret_of_not_makes hmakes]

end Host

/-- `kbexec_shell` with pipes that hold `room` bytes, of which a write takes up 32 at most. -/
def execProtocol (room : ℕ) (hroom : 32 ≤ room) : Protocol Host Call CInt UInt8 where
  writes := Host.writes
  answer host c bufs := (host.run c bufs).ret
  tidies c := (kbnodeGetSrcdef c.symtab).isSome
  room := room
  width := 32
  answer_flatten _ _ _ _ h := Host.ret_congr h
  length_le_room host c ws h w hw := by
    obtain ⟨p, -, rfl⟩ := Option.map_eq_some_iff.mp h
    exact (length_le_of_mem_pipeWrites hw).trans hroom
  width_pos := by decide

/-! ### Threads -/

/-- A run of threads that each run a tree once, with the commands that have returned. -/
abbrev TreesRun (room : ℕ) (hroom : 32 ≤ room) (trees : List (Host × KbTree))
    (es : List Piped.Event) (s : State Host Call CInt CInt UInt8)
    (out : List (Answered Call CInt)) : Prop :=
  Runs (execProtocol room hroom) (runnersOf trees) es s out

/-- What a call returns to a thread that is alone. -/
def Host.status (host : Host) (c : Call) : CInt :=
  if (host.run c []).child.isSome then (host.syscalls c).status else exitFailure

/-- What the commands of a tree return to a thread that is alone. -/
def Host.shell (host : Host) (t : KbTree) : Shell := fun p key i =>
  match t.at? [] p with
  | none => 0
  | some (_, n) =>
    host.status { path := p, key := key, index := i, symtab := n.symtab
                  command := (kbnodeGetvalueAll n.symtab key).getD i [] }

variable {room : ℕ} {hroom : 32 ≤ room} {trees : List (Host × KbTree)} {es : List Piped.Event}
  {s s' : State Host Call CInt CInt UInt8} {out out' : List (Answered Call CInt)} {host : Host}
  {t : KbTree} {i j : ℕ} {th x : Thread Host Call CInt CInt UInt8}

theorem Host.reply_eq (host : Host) (c : Call) :
    (execProtocol room hroom).reply host c = host.status c := by
  by_cases hmakes : host.Makes c
  · have hwrites := writes_of_makes hmakes
    have hsome : (host.run c []).child.isSome = true := by
      rw [Host.writes] at hwrites
      obtain ⟨p, hp, -⟩ := Option.map_eq_some_iff.mp hwrites
      rw [hp]
      rfl
    have hstream : ((host.writes c).getD []).flatten =
        (host.syscalls c).output ++ 0 :: bytesOf (host.syscalls c).status := by
      rw [hwrites, Option.getD_some, List.flatten_append, copyLoop_flatten]
      simp
    rw [Host.status, if_pos hsome]
    exact (ret_of_makes hmakes _).trans (receivedStatus_of_complete hstream)
  · rw [Host.status, child_of_not_makes hmakes]
    exact ret_of_not_makes hmakes _

theorem Host.shell_agrees (host : Host) (t : KbTree) : Agrees (host.shell t) host.status t := by
  intro p up n hat key i cmd hcmd
  have hshell : host.shell t p key i = host.status ⟨p, key, i, n.symtab, cmd⟩ := by
    simp only [Host.shell, hat, List.getD_eq_getElem?_getD, hcmd, Option.getD_some]
  rw [hshell, kbexecShell]
  cases hsrc : kbnodeGetSrcdef n.symtab with
  | some srcdef => rfl
  | none =>
    have hnot : ¬ host.Makes ⟨p, key, i, n.symtab, cmd⟩ := fun h => h.1 hsrc
    rw [Host.status, child_of_not_makes hnot]
    rfl

/-- The commands that have returned to a thread are the first ones that its tree alone executes,
with the same statuses, and when the run of the tree has returned they are all of them. -/
structure ExecutesAlone (host : Host) (t : KbTree) (got : List (Call × CInt))
    (result : Option CInt) : Prop where
  executed : got.map (fun a => a.1.executed) <+:
    (kbbiRun (host.shell t) [] t).trace.filterMap Event.executed
  status : ∀ a ∈ got, a.2 = host.status a.1
  finished : ∀ ret, result = some ret → ret = (kbbiRun (host.shell t) [] t).ret ∧
    got.map (fun a => a.1.executed) = (kbbiRun (host.shell t) [] t).trace.filterMap Event.executed

/-- Whatever turns the threads, the children and the shells of the cleanup take, a thread executes
its tree as if it were alone. -/
theorem treesRun_executesAlone (h : TreesRun room hroom trees es s out) (hth : s[i]? = some th)
    (htree : trees[i]? = some (host, t)) : ExecutesAlone host t (answeredBy i out) th.result := by
  have hm : (runnersOf trees)[i]? = some (host, kbbiRunProg [] t) := by
    rw [runnersOf, List.getElem?_map, htree]
    rfl
  have hreply : (execProtocol room hroom).reply host = host.status := funext host.reply_eq
  obtain ⟨hret, hcalls⟩ := Follows.of_agrees (host.shell_agrees t) [] t rfl
  obtain ⟨hfirst, hdone⟩ := h.follows hth hm
  have hanswers : (execProtocol room hroom).answers host (kbbiRunProg [] t) =
      ((kbbiRunProg [] t).run host.status).2.map fun c => (c, host.status c) := by
    rw [Protocol.answers, hreply]
  have hmap : (((kbbiRunProg [] t).run host.status).2.map fun c => (c, host.status c)).map
      (fun a => a.1.executed) = (kbbiRun (host.shell t) [] t).trace.filterMap Event.executed := by
    rw [← hcalls, List.map_map]
    rfl
  rw [hanswers] at hfirst
  refine ⟨?_, fun a ha => ?_, fun ret hresult => ?_⟩
  · rw [← hmap]
    exact hfirst.map _
  · obtain ⟨c, -, rfl⟩ := List.mem_map.mp (hfirst.subset ha)
    rfl
  · obtain ⟨hresult, hall⟩ := hdone ret hresult
    rw [hanswers] at hall
    rw [hreply] at hresult
    exact ⟨hresult.trans hret, by rw [hall, hmap]⟩

/-- Every call succeeds, and no command writes anything. -/
def quietHost : Host where
  syscalls _ := allSucceed
  starts _ _ := ⟨fun _ _ _ _ => rfl, rfl, rfl⟩

/-- A root with one command. -/
def oneCommand : KbTree := .ofVars "ep".toList [(kbnodeKeyExec, ["a".toList])] [] []

def twoThreads : List (Host × KbTree) := [(quietHost, oneCommand), (quietHost, oneCommand)]

/-- The child of a thread writes nothing, a NUL and the status, and ends. -/
def childEvents (i : ℕ) : List Piped.Event := [.child i, .child i, .child i, .child i]

/-- Both threads have opened their pipes before the first one forks. -/
def twoPipes : List Piped.Event := [.thread 0 0, .thread 1 0]

/-- The first thread comes to its end. -/
def firstEnds : List Piped.Event :=
  twoPipes ++ [.thread 0 0, .thread 1 0, .thread 0 0, .thread 1 0] ++ childEvents 0 ++
    childEvents 1 ++ [.thread 0 5, .thread 0 0, .helper 0, .thread 0 0]

theorem firstEnds_executesAlone : ∃ s out, ∃ th : Thread Host Call CInt CInt UInt8,
    TreesRun 32 le_rfl twoThreads firstEnds s out ∧ s[0]? = some th ∧ th.result = some 0 ∧
      ExecutesAlone quietHost oneCommand (answeredBy 0 out) th.result := by
  obtain ⟨s, out, hrun, hend⟩ := Transition.exists_run (step (execProtocol 32 le_rfl))
    (start (runnersOf twoThreads)) firstEnds
    (fun r => (r.1[0]?.bind Thread.result) = some 0) (by decide +kernel)
  obtain ⟨th, hth, hresult⟩ := Option.bind_eq_some_iff.mp (of_decide_eq_true hend)
  exact ⟨s, out, th, hrun, hth, hresult, treesRun_executesAlone hrun hth rfl⟩

/-! ### The end of the threads -/

/-- The steps of a call: the writes and reads of its bytes, and what the parent does. -/
def Host.steps (host : Host) (c : Call) : ℕ :=
  let n := (host.syscalls c).output.length
  2 * n + n / 32 + 20

/-- The steps of all commands that a tree alone executes. -/
def Host.work (host : Host) (t : KbTree) : ℕ :=
  (((kbbiRunProg [] t).run host.status).2.map host.steps).sum

theorem Host.load_le (host : Host) (c : Call) :
    (execProtocol room hroom).load host c + 7 ≤ host.steps c := by
  by_cases hmakes : host.Makes c
  · have hload : ∀ ws : List (List UInt8),
        (ws.map fun w => 2 * w.length + 1).sum = 2 * ws.flatten.length + ws.length := by
      intro ws
      induction ws with
      | nil => rfl
      | cons w ws ih =>
        rw [List.map_cons, List.sum_cons, ih, List.flatten_cons, List.length_append,
          List.length_cons]
        omega
    have hwrites := writes_of_makes hmakes
    have hlength := length_copyLoop [] (host.syscalls c).output (by simp)
    have hstatus := length_bytesOf (host.syscalls c).status
    have hall : (execProtocol room hroom).load host c =
        (((host.writes c).getD []).map fun w => 2 * w.length + 1).sum := rfl
    rw [hall, hwrites, Option.getD_some, hload, List.flatten_append, copyLoop_flatten,
      List.nil_append, Host.steps]
    simp only [List.length_append, hlength, List.length_nil, List.flatten_cons, List.flatten_nil,
      List.length_cons, hstatus, Nat.zero_add]
    omega
  · have hwrites : (execProtocol room hroom).writes host c = none := writes_of_not_makes hmakes
    rw [Protocol.load, hwrites, Host.steps]
    simp

theorem Host.work_le (host : Host) (t : KbTree) :
    (execProtocol room hroom).work host (kbbiRunProg [] t) ≤ host.work t := by
  have hreply : (execProtocol room hroom).reply host = host.status := funext host.reply_eq
  rw [Protocol.work, hreply, Host.work]
  exact List.sum_le_sum fun c _ => host.load_le c

/-- No order of steps goes on forever, and as long as a tree is still run there is a step to take:
the threads never wait for each other in a circle. -/
theorem treesRun_finishes (h : TreesRun room hroom trees es s out) :
    es.length ≤ (trees.map fun t => t.1.work t.2).sum ∧
      ((∃ th ∈ s, th.result = none) →
        ∃ e s' out', step (execProtocol room hroom) s e = some (s', out')) := by
  constructor
  · have hle := h.length_le
    have hwork : ((runnersOf trees).map fun m => (execProtocol room hroom).work m.1 m.2).sum ≤
        (trees.map fun t => t.1.work t.2).sum := by
      rw [runnersOf, List.map_map]
      exact List.sum_le_sum fun t _ => t.1.work_le t.2
    omega
  · rintro ⟨th, hmem, hresult⟩
    obtain ⟨i, hth⟩ := List.mem_iff_getElem?.mp hmem
    exact h.canStep hth hresult

theorem twoPipes_finishes : ∃ s out, TreesRun 32 le_rfl twoThreads twoPipes s out ∧
    twoPipes.length ≤ (twoThreads.map fun t => t.1.work t.2).sum ∧
      ((∃ th ∈ s, th.result = none) →
        ∃ e s' out', step (execProtocol 32 le_rfl) s e = some (s', out')) := by
  obtain ⟨s, out, hrun, -⟩ := Transition.exists_run (step (execProtocol 32 le_rfl))
    (start (runnersOf twoThreads)) twoPipes (fun _ => true) (by decide +kernel)
  exact ⟨s, out, hrun, treesRun_finishes hrun⟩

/-! ### Waiting for the command of another thread -/

/-- A child that is forked by the thread `j` while the process has the end of the thread `i` open
keeps the command of the thread `i` from returning, until it takes a step itself; and whatever a
process has open is the end of a command that has not returned. -/
theorem treesRun_waits (h : TreesRun room hroom trees es s out) (hi : i ∈ openEnds s)
    (hx : s[j]? = some x) (hfork : x.place.atFork = true) {n : ℕ} {es' : List Piped.Event}
    (hrun : Transition.Run (step (execProtocol room hroom)) s (.thread j n :: es') s' out')
    (hes : ∀ e ∈ es', e ≠ .child j) : answeredBy i out' = [] ∧ EndsInCall s' :=
  ⟨h.unanswered hx hfork hi hrun hes, (Runs.inv (h.append hrun)).ends⟩

/-- The child of the first thread has ended, and all that it has written was read. -/
def firstWaits : List Piped.Event :=
  [.thread 0 0, .thread 0 0] ++ childEvents 0 ++ [.thread 0 5]

theorem firstWaits_waits : ∃ s out s' out', TreesRun 32 le_rfl twoThreads twoPipes s out ∧
    Transition.Run (step (execProtocol 32 le_rfl)) s (.thread 1 0 :: firstWaits) s' out' ∧
      answeredBy 0 out' = [] ∧ EndsInCall s' := by
  obtain ⟨s, out, hrun, hopen⟩ := Transition.exists_run (step (execProtocol 32 le_rfl))
    (start (runnersOf twoThreads)) twoPipes
    (fun r => (0 ∈ openEnds r.1) && r.1[1]?.any (fun th => th.place.atFork) &&
      (Transition.exec (step (execProtocol 32 le_rfl)) r.1 (.thread 1 0 :: firstWaits)).isSome)
    (by decide +kernel)
  simp only [Bool.and_eq_true, decide_eq_true_eq] at hopen
  obtain ⟨⟨hi, hfork⟩, hexec⟩ := hopen
  obtain ⟨x, hx, hplace⟩ := (Option.any_eq_true _ _).mp hfork
  obtain ⟨⟨s', out'⟩, hrest⟩ := Option.isSome_iff_exists.mp hexec
  have hrun' := Transition.run_iff_exec.mpr hrest
  have hothers : ∀ e ∈ firstWaits, e ≠ .child 1 := by simp [firstWaits, childEvents]
  exact ⟨s, out, s', out', hrun, hrun', treesRun_waits hrun hi hx hplace hrun' hothers⟩

end Kubeka
