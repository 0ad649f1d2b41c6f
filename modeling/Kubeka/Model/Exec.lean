import Kubeka.Model.Run

/-!
# Executing a command (`kbexec.c`)

`kbexec_shell` runs a command in a child process. After `fork` there are two
continuations of the same call; each is given as what it does and how it ends.
What the system calls do is decided outside the program, one outcome each for
the single time that a call of `kbexec_shell` makes them. Allocations succeed.
-/

namespace Kubeka

def kbnodeKeyWdir : CStr := "DIRECTORY".toList
def kbnodeKeyWuser : CStr := "RUNAS_USER".toList

/-- `struct passwd` -/
structure Passwd where
  uid : ℕ
  gid : ℕ

/-- `(uid_t)-1` and `(gid_t)-1` -/
def noId : ℕ := 2 ^ 32 - 1

/-- The outcomes of the system calls during one `kbexec_shell`. -/
structure Syscalls where
  getpwnam : CStr → Option Passwd
  mkdtemp : Bool
  /-- what stands in place of `XXXXXX` after `mkdtemp`, also after a failure -/
  suffix : CStr
  chown : Bool
  pipe : Bool
  fork : Bool
  setuid : Bool
  chdir : Bool
  popen : Bool
  /-- what the command writes, and its status from `pclose` -/
  output : List UInt8
  status : CInt
  /-- what the `read` calls of the parent give, up to the end of the file -/
  received : List (List UInt8)
  /-- the `int` found in front of the buffer when less than four bytes were received -/
  outside : CInt

/-- Nothing fails, and the command writes nothing. -/
def allSucceed : Syscalls where
  getpwnam _ := none
  mkdtemp := true
  suffix := "abcdef".toList
  chown := true
  pipe := true
  fork := true
  setuid := true
  chdir := true
  popen := true
  output := []
  status := 0
  received := [[0, 0, 0, 0, 0]]
  outside := 0

/-- What a process does that is seen outside of it. -/
inductive Act where
  | mkdtemp (path : CStr) (ok : Bool)
  | chown (path : CStr) (uid gid : ℕ)
  | setuid (uid : ℕ)
  | chdir (path : CStr)
  | popen (command : CStr)
  | write (bytes : List UInt8)
  | system (line : CStr)
  deriving DecidableEq, Repr

inductive Finish where
  /-- the process has called `exit` -/
  | exit (status : CInt)
  /-- the process returns to the caller of `kbexec_shell` -/
  | returned (ret : CInt)
  deriving DecidableEq, Repr

/-- What a process does from the call of `kbexec_shell`, or from `fork`, on. -/
structure Process where
  acts : List Act
  finish : Finish

/-- The processes of one call, and the directory that its `mkdtemp` made. -/
structure ExecRun where
  made : Option CStr
  parent : Process
  child : Option Process

/-! ### Results through the pipe -/

/-- An `int` as it lies in memory. -/
def bytesOf (rc : CInt) : List UInt8 :=
  (List.range 4).map fun i => UInt8.ofNat (rc.toNat / 256 ^ i)

def intOf (bytes : List UInt8) : CInt :=
  BitVec.ofNat 32 (bytes.foldr (fun b n => b.toNat + 256 * n) 0)

/-- The status that the parent takes from the end of what it received. -/
def receivedStatus (sys : Syscalls) : CInt :=
  let received := sys.received.flatten
  if received.length < 4 then sys.outside else intOf (received.drop (received.length - 4))

/-! ### The processes -/

def rmRf : CStr := "rm -rf ".toList

def rmLine (wdir : CStr) : CStr := rmRf ++ wdir

/-- The end of `kbexec_shell`, from the label `cleanup` on, with a directory name in `wdir`. -/
def cleanup (wdir : CStr) (acts : List Act) (ret : CInt) : Process :=
  { acts := acts ++ [.system (rmLine wdir)], finish := .returned ret }

/-- What the child does, and its exit status; `none` when `spawn_child` returns false. -/
def spawnChild (sys : Syscalls) (wdir : CStr) (uid : ℕ) (command : CStr) :
    List Act × Option CInt :=
  let user : List Act := if uid ≠ noId then [.setuid uid] else []
  if uid ≠ noId ∧ ¬ sys.setuid then (user, none)
  else if ¬ sys.chdir then (user ++ [.chdir wdir], none)
  else if ¬ sys.popen then (user ++ [.chdir wdir, .popen command], none)
  else
    (user ++ [.chdir wdir, .popen command, .write sys.output, .write [0],
      .write (bytesOf sys.status)], some sys.status)

/-- `kbexec_shell` from `pipe` on. -/
def forkExec (sys : Syscalls) (wdir : CStr) (uid : ℕ) (command : CStr) (acts : List Act)
    (made : Option CStr) : ExecRun :=
  if ¬ sys.pipe then { made := made, parent := cleanup wdir acts exitFailure, child := none }
  else if ¬ sys.fork then { made := made, parent := cleanup wdir acts exitFailure, child := none }
  else
    { made := made
      parent := cleanup wdir acts (receivedStatus sys)
      child := some (match spawnChild sys wdir uid command with
        | (acts, some rc) => { acts := acts, finish := .exit rc }
        -- the child goes to the cleanup as the parent does, and returns
        | (acts, none) => cleanup wdir acts exitFailure) }

/-- User and group of the command; `none` when the user is not found. The user is taken from the
group of the record. -/
def execIds (sys : Syscalls) (wuser : CStr) : Option (ℕ × ℕ) :=
  if wuser = [] then some (noId, noId)
  else (sys.getpwnam wuser).map fun pwrec => (pwrec.gid, pwrec.gid)

/-- The temporary directory of a node. -/
def tempDir (sys : Syscalls) (id : CStr) : CStr := "/tmp/node-".toList ++ id ++ sys.suffix

def kbexecShellRun (sys : Syscalls) (st : Symtab) (command : CStr) : ExecRun :=
  match kbnodeGetSrcdef st with
  | none =>
    { made := none, parent := { acts := [], finish := .returned exitFailure }, child := none }
  | some (id, _, _) =>
    let wdir := kbnodeGetvalueFirst st kbnodeKeyWdir
    match execIds sys (kbnodeGetvalueFirst st kbnodeKeyWuser) with
    | none => { made := none, parent := cleanup wdir [] exitFailure, child := none }
    | some (uid, gid) =>
      if wdir ≠ [] then forkExec sys wdir uid command [] none
      else
        let wdir := tempDir sys id
        if ¬ sys.mkdtemp then
          { made := none, parent := cleanup wdir [.mkdtemp wdir false] exitFailure, child := none }
        else if ¬ sys.chown then
          { made := some wdir
            parent := cleanup wdir [.mkdtemp wdir true, .chown wdir uid gid] exitFailure
            child := none }
        else
          forkExec sys wdir uid command [.mkdtemp wdir true, .chown wdir uid gid] (some wdir)

/-! ### How the processes end -/

def Finish.ret : Finish → Option CInt
  | .returned ret => some ret
  | .exit _ => none

/-- What the parent returns. -/
def ExecRun.ret (r : ExecRun) : CInt := (r.parent.finish.ret).getD 0

/-- What the child returns, when it returns instead of calling `exit`. -/
def ExecRun.childRet (r : ExecRun) : Option CInt := r.child.bind fun p => p.finish.ret

/-- The directory in `wdir` when the cleanup is reached. -/
def execDir (sys : Syscalls) (st : Symtab) : CStr :=
  if execIds sys (kbnodeGetvalueFirst st kbnodeKeyWuser) = none ∨
      kbnodeGetvalueFirst st kbnodeKeyWdir ≠ [] then kbnodeGetvalueFirst st kbnodeKeyWdir
  else tempDir sys (kbnodeGetvalueFirst st kbnodeKeyId)

/-- The directory that `mkdtemp` makes, if it comes to that. -/
def madeDir (sys : Syscalls) (st : Symtab) : Option CStr :=
  if execIds sys (kbnodeGetvalueFirst st kbnodeKeyWuser) ≠ none ∧
      kbnodeGetvalueFirst st kbnodeKeyWdir = [] ∧ sys.mkdtemp = true then
    some (tempDir sys (kbnodeGetvalueFirst st kbnodeKeyId))
  else none

/-- The call comes to `fork`, and a child is made. -/
def Forks (sys : Syscalls) (st : Symtab) : Prop :=
  kbnodeGetSrcdef st ≠ none ∧ execIds sys (kbnodeGetvalueFirst st kbnodeKeyWuser) ≠ none ∧
    (kbnodeGetvalueFirst st kbnodeKeyWdir = [] → sys.mkdtemp = true ∧ sys.chown = true) ∧
    sys.pipe = true ∧ sys.fork = true

/-- The child comes to the command: it can become the user, enter the directory and start it. -/
def ChildStarts (sys : Syscalls) (st : Symtab) : Prop :=
  (∀ uid gid, execIds sys (kbnodeGetvalueFirst st kbnodeKeyWuser) = some (uid, gid) → uid ≠ noId →
    sys.setuid = true) ∧ sys.chdir = true ∧ sys.popen = true

/-- No line has been given to the shell. -/
def NoLine (acts : List Act) : Prop := ∀ line, Act.system line ∉ acts

/-- The processes from `fork` on, or the parent alone. -/
structure ForkedRun (sys : Syscalls) (wdir : CStr) (made : Option CStr) (forks starts : Prop)
    (r : ExecRun) : Prop where
  made : r.made = made
  parent : ∃ acts ret, NoLine acts ∧ r.parent = cleanup wdir acts ret
  noChild : ¬ forks → r.child = none
  exits : forks → starts → ∃ acts, NoLine acts ∧
    r.child = some { acts := acts, finish := .exit sys.status }
  returns : forks → ¬ starts → ∃ acts, NoLine acts ∧
    r.child = some (cleanup wdir acts exitFailure)

theorem spawnChild_spec (sys : Syscalls) (wdir : CStr) (uid : ℕ) (command : CStr) :
    NoLine (spawnChild sys wdir uid command).1 ∧ (spawnChild sys wdir uid command).2 =
      if (uid ≠ noId → sys.setuid = true) ∧ sys.chdir = true ∧ sys.popen = true then
        some sys.status else none := by
  unfold spawnChild
  by_cases huid : uid = noId <;> cases sys.setuid <;> cases sys.chdir <;> cases sys.popen <;>
    simp [huid, NoLine]

theorem forkExec_spec (sys : Syscalls) (wdir : CStr) (uid : ℕ) (command : CStr) (acts : List Act)
    (hacts : NoLine acts) (made : Option CStr) :
    ForkedRun sys wdir made (sys.pipe = true ∧ sys.fork = true)
      ((uid ≠ noId → sys.setuid = true) ∧ sys.chdir = true ∧ sys.popen = true)
      (forkExec sys wdir uid command acts made) := by
  obtain ⟨hlines, hrc⟩ := spawnChild_spec sys wdir uid command
  unfold forkExec
  by_cases hpipe : sys.pipe = true
  · by_cases hfork : sys.fork = true
    · rw [if_neg (not_not.mpr hpipe), if_neg (not_not.mpr hfork)]
      refine ⟨rfl, ⟨acts, _, hacts, rfl⟩, fun h => absurd ⟨hpipe, hfork⟩ h, fun _ hs => ?_,
        fun _ hs => ?_⟩
      · rw [if_pos hs] at hrc
        exact ⟨(spawnChild sys wdir uid command).1, hlines, by rw [← Prod.mk.eta (p := spawnChild
          sys wdir uid command), hrc]⟩
      · rw [if_neg hs] at hrc
        exact ⟨(spawnChild sys wdir uid command).1, hlines, by rw [← Prod.mk.eta (p := spawnChild
          sys wdir uid command), hrc]⟩
    · rw [if_neg (not_not.mpr hpipe), if_pos hfork]
      exact ⟨rfl, ⟨acts, _, hacts, rfl⟩, fun _ => rfl, fun h => absurd h.2 hfork,
        fun h => absurd h.2 hfork⟩
  · rw [if_pos hpipe]
    exact ⟨rfl, ⟨acts, _, hacts, rfl⟩, fun _ => rfl, fun h => absurd h.1 hpipe,
      fun h => absurd h.1 hpipe⟩

theorem ForkedRun.congr {sys : Syscalls} {wdir : CStr} {made : Option CStr}
    {forks forks' starts starts' : Prop} {r : ExecRun} (h : ForkedRun sys wdir made forks starts r)
    (hforks : forks ↔ forks') (hstarts : starts ↔ starts') :
    ForkedRun sys wdir made forks' starts' r := by
  rwa [← propext hforks, ← propext hstarts]

theorem ForkedRun.alone {sys : Syscalls} {wdir : CStr} {made : Option CStr} {forks starts : Prop}
    {acts : List Act} (hacts : NoLine acts) (hforks : ¬ forks) (ret : CInt) :
    ForkedRun sys wdir made forks starts
      { made := made, parent := cleanup wdir acts ret, child := none } :=
  ⟨rfl, ⟨acts, ret, hacts, rfl⟩, fun _ => rfl, fun h => absurd h hforks, fun h => absurd h hforks⟩

theorem kbnodeGetSrcdef_id {st : Symtab} {id fname : CStr} {line : ℕ}
    (h : kbnodeGetSrcdef st = some (id, fname, line)) : id = kbnodeGetvalueFirst st kbnodeKeyId := by
  unfold kbnodeGetSrcdef at h
  split at h
  · next hid =>
    rw [kbnodeGetvalueFirst, kbsymtabGetString_of_cons hid]
    exact (Prod.mk.inj (Option.some.inj h)).1.symm
  · simp at h

/-- What a call of `kbexec_shell` can do, for a node with an origin. -/
theorem kbexecShellRun_spec (sys : Syscalls) {st : Symtab} (hsrc : kbnodeGetSrcdef st ≠ none)
    (command : CStr) :
    ForkedRun sys (execDir sys st) (madeDir sys st) (Forks sys st) (ChildStarts sys st)
      (kbexecShellRun sys st command) := by
  obtain ⟨⟨id, fname, line⟩, hdef⟩ := Option.ne_none_iff_exists'.mp hsrc
  have hid := kbnodeGetSrcdef_id hdef
  cases hids : execIds sys (kbnodeGetvalueFirst st kbnodeKeyWuser) with
  | none =>
    simp only [kbexecShellRun, hdef, hids, execDir, madeDir, ne_eq, not_true_eq_false, false_and,
      true_or, if_true, if_false]
    exact .alone (by simp [NoLine]) (fun h => h.2.1 hids) _
  | some ids =>
    obtain ⟨uid, gid⟩ := ids
    have hstarts : ((uid ≠ noId → sys.setuid = true) ∧ sys.chdir = true ∧ sys.popen = true) ↔
        ChildStarts sys st := by
      simp [ChildStarts, hids]
    by_cases hdir : kbnodeGetvalueFirst st kbnodeKeyWdir = []
    · have hforks : (sys.mkdtemp = true ∧ sys.chown = true) ∧ (sys.pipe = true ∧ sys.fork = true) ↔
          Forks sys st := by
        simp [Forks, hsrc, hids, hdir]
      simp only [kbexecShellRun, hdef, hids, execDir, madeDir, hdir, hid]
      by_cases hmk : sys.mkdtemp = true
      · by_cases hown : sys.chown = true
        · have hrun := forkExec_spec sys (tempDir sys (kbnodeGetvalueFirst st kbnodeKeyId)) uid
            command [.mkdtemp (tempDir sys (kbnodeGetvalueFirst st kbnodeKeyId)) true,
              .chown (tempDir sys (kbnodeGetvalueFirst st kbnodeKeyId)) uid gid]
            (by simp [NoLine]) (some (tempDir sys (kbnodeGetvalueFirst st kbnodeKeyId)))
          simp only [hmk, hown]
          exact hrun.congr (by simp [← hforks, hmk, hown]) hstarts
        · simp only [hmk, hown]
          exact .alone (by simp [NoLine]) (fun h => hown (hforks.mpr h).1.2) _
      · simp only [hmk]
        exact .alone (by simp [NoLine]) (fun h => hmk (hforks.mpr h).1.1) _
    · have hforks : (sys.pipe = true ∧ sys.fork = true) ↔ Forks sys st := by
        simp [Forks, hsrc, hids, hdir]
      simp only [kbexecShellRun, hdef, hids, execDir, madeDir, hdir, ne_eq, not_false_eq_true,
        or_true, and_false, false_and, if_true, if_false]
      exact (forkExec_spec sys _ uid command [] (by simp [NoLine]) none).congr hforks hstarts

/-- Without an origin the call fails, as `kbexecShell` has it. -/
theorem kbexecShell_ret (sys : Syscalls) (st : Symtab) (command : CStr) :
    kbexecShell st (kbexecShellRun sys st command).ret = (kbexecShellRun sys st command).ret := by
  cases hsrc : kbnodeGetSrcdef st with
  | none => simp [kbexecShell, hsrc, kbexecShellRun, ExecRun.ret, Finish.ret]
  | some srcdef => simp [kbexecShell, hsrc]

/-- The child returns exactly when it is made and does not come to the command. -/
theorem kbexecShellRun_childRet (sys : Syscalls) (st : Symtab) (command : CStr) :
    (kbexecShellRun sys st command).childRet ≠ none ↔ Forks sys st ∧ ¬ ChildStarts sys st := by
  by_cases hsrc : kbnodeGetSrcdef st = none
  · simp [kbexecShellRun, hsrc, ExecRun.childRet, Forks]
  · have hspec := kbexecShellRun_spec sys hsrc command
    unfold ExecRun.childRet
    by_cases hforks : Forks sys st
    · by_cases hstarts : ChildStarts sys st
      · obtain ⟨acts, -, h⟩ := hspec.exits hforks hstarts
        simp [h, Finish.ret, hstarts]
      · obtain ⟨acts, -, h⟩ := hspec.returns hforks hstarts
        simp [h, Finish.ret, cleanup, hforks, hstarts]
    · simp [hspec.noChild hforks, hforks]

end Kubeka
