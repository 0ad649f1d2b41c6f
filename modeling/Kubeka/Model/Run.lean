import Kubeka.Model.Node
import Mathlib.Data.BitVec

/-!
# Running a tree (`kbbi.c`, `kbexec.c`)

`kbbi_run` walks an evaluated tree. What a command returns is decided outside
the program: `Shell` gives the result of each command by the place of its node,
its key and its position, since a run executes every command at most once. A
run returns the status, the counts of errors and warnings, and a trace of what
was started, executed, rolled back and finished, in order.
-/

namespace Kubeka

/-- `int` -/
abbrev CInt := BitVec 32

def exitFailure : CInt := 1

/-- Results of the commands: of the node at a place, under a key, the one at a position. -/
abbrev Shell := Path → CStr → ℕ → CInt

inductive Event where
  /-- `kbbi_run` is called on a node -/
  | start (p : Path)
  /-- an EXEC command is executed -/
  | command (p : Path) (i : ℕ) (cmd : CStr) (rc : CInt)
  /-- `Failed to find one of JOBS[], EXEC or EMITS` -/
  | noAction (p : Path)
  /-- `kbbi_run` returns -/
  | finish (p : Path) (ret : CInt)
  /-- `kbbi_rollback` is called on a node -/
  | rollback (p : Path)
  /-- a ROLLBACK action is executed -/
  | action (p : Path) (i : ℕ) (cmd : CStr) (rc : CInt)
  deriving DecidableEq, Repr

/-- The node that an event is about. -/
def Event.path : Event → Path
  | .start p | .command p _ _ _ | .noAction p | .finish p _ | .rollback p | .action p _ _ _ => p

/-- A node without origin is refused before its command is looked at. -/
def kbexecShell (st : Symtab) (result : CInt) : CInt :=
  match kbnodeGetSrcdef st with
  | none => exitFailure
  | some _ => result

/-! ### Rollback -/

structure RolledBack where
  ok : Bool
  nerrors : ℕ
  nwarnings : ℕ
  trace : List Event

def kbbiRollback (shell : Shell) (p : Path) (st : Symtab) : RolledBack :=
  match kbnodeGetSrcdef st with
  | none => { ok := false, nerrors := 1, nwarnings := 0, trace := [.rollback p] }
  | some _ =>
    match kbnodeGetvalueAll st kbnodeKeyRollback with
    | [] | [] :: _ => { ok := true, nerrors := 0, nwarnings := 1, trace := [.rollback p] }
    | actions =>
      { ok := true, nerrors := 0, nwarnings := 0
        trace := .rollback p :: actions.mapIdx fun i a =>
          .action p i a (kbexecShell st (shell p kbnodeKeyRollback i)) }

/-- The status, the counts and the trace of a run or of a part of it. -/
structure Ran where
  ret : CInt
  nerrors : ℕ
  nwarnings : ℕ
  trace : List Event

/-- Roll back one of the jobs of the node at `p`; a failure is one more error. -/
def rollbackJob (shell : Shell) (p : Path) (jobs : List KbTree) (ret : CInt) (j : ℕ) : Ran :=
  match jobs[j]? with
  | none => { ret := ret, nerrors := 0, nwarnings := 0, trace := [] }
  | some job =>
    let r := kbbiRollback shell (p ++ [.job j]) job.symtab
    { ret := ret, nerrors := if r.ok then r.nerrors else r.nerrors + 1,
      nwarnings := r.nwarnings, trace := r.trace }

/-- `for (j = i; j > 0; j--)`, and then the job at 0. -/
def unwindJobs (shell : Shell) (p : Path) (jobs : List KbTree) (ret : CInt) : ℕ → Ran
  | 0 => rollbackJob shell p jobs ret 0
  | j + 1 =>
    let r := rollbackJob shell p jobs ret (j + 1)
    let rs := unwindJobs shell p jobs ret j
    { ret := ret, nerrors := r.nerrors + rs.nerrors, nwarnings := r.nwarnings + rs.nwarnings,
      trace := r.trace ++ rs.trace }

/-! ### Commands -/

/-- The loop over EXEC, which ends at the first empty command; `ret |= ...` -/
def runCommands (shell : Shell) (p : Path) (st : Symtab) : ℕ → List CStr → CInt → CInt × List Event
  | _, [], ret => (ret, [])
  | i, cmd :: cmds, ret =>
    if cmd = [] then (ret, [])
    else
      let rc := kbexecShell st (shell p kbnodeKeyExec i)
      let r := runCommands shell p st (i + 1) cmds (ret ||| rc)
      (r.1, .command p i cmd rc :: r.2)

/-! ### Nodes -/

/-- What a loop of `kbbi_run` did, and whether it did anything. -/
structure LoopRan extends Ran where
  done : Bool

/-- After the loops: the node returns with the result of the first loop that did something. -/
def finishNode (p : Path) (st : Symtab) (shell : Shell) (handlers jobs : LoopRan) : Ran :=
  let close (r : Ran) : Ran :=
    { r with trace := .start p :: r.trace ++ [.finish p r.ret] }
  if handlers.done then close handlers.toRan
  else
    let s_exec := kbnodeGetvalueAll st kbnodeKeyExec
    let (ret, commands) := runCommands shell p st 0 s_exec handlers.ret
    if commands ≠ [] then close { ret := ret, nerrors := 0, nwarnings := 0, trace := commands }
    else if jobs.done then close jobs.toRan
    else close { ret := ret, nerrors := 0, nwarnings := 0, trace := [.noAction p] }

mutual

def kbbiRun (shell : Shell) (p : Path) : KbTree → Ran
  | .node _ st jobs handlers =>
    match kbnodeGetSrcdef st with
    | none => { ret := exitFailure, nerrors := 1, nwarnings := 0,
                trace := [.start p, .finish p exitFailure] }
    | some _ =>
      let signals := kbnodeGetvalueAll st kbnodeKeyEmits
      finishNode p st shell (runHandlers shell p signals 0 handlers) (runJobs shell p jobs 0 jobs)

/-- The handlers of the signals, from position `i` on; `ret += ...` -/
def runHandlers (shell : Shell) (p : Path) (signals : List CStr) : ℕ → List KbTree → LoopRan
  | _, [] => { ret := 0, nerrors := 0, nwarnings := 0, trace := [], done := false }
  | i, h :: hs =>
    let rs := runHandlers shell p signals (i + 1) hs
    if nodeFilterHandlers h.symtab signals then
      let r := kbbiRun shell (p ++ [.handler i]) h
      { ret := r.ret + rs.ret, nerrors := r.nerrors + rs.nerrors,
        nwarnings := r.nwarnings + rs.nwarnings, trace := r.trace ++ rs.trace, done := true }
    else rs

/-- The jobs from position `i` on, up to the first that fails; `all` are the jobs to roll back. -/
def runJobs (shell : Shell) (p : Path) (all : List KbTree) : ℕ → List KbTree → LoopRan
  | _, [] => { ret := 0, nerrors := 0, nwarnings := 0, trace := [], done := false }
  | i, job :: jobs =>
    let r := kbbiRun shell (p ++ [.job i]) job
    if r.ret ≠ 0 then
      let rb := unwindJobs shell p all r.ret i
      { ret := r.ret, nerrors := r.nerrors + rb.nerrors, nwarnings := r.nwarnings + 1 + rb.nwarnings,
        trace := r.trace ++ rb.trace, done := true }
    else
      let rs := runJobs shell p all (i + 1) jobs
      { ret := rs.ret, nerrors := r.nerrors + rs.nerrors, nwarnings := r.nwarnings + rs.nwarnings,
        trace := r.trace ++ rs.trace, done := true }

end

/-! ### Launching -/

def findNode (nodeId : CStr) (nodes : List KbTree) : Option KbTree :=
  nodes.find? fun n => kbnodeGetvalueFirst n.symtab kbnodeKeyId = nodeId

def kbbiLaunch (shell : Shell) (nodeId : CStr) (nodes : List KbTree) : Ran :=
  match findNode nodeId nodes with
  | none => { ret := exitFailure, nerrors := 1, nwarnings := 0, trace := [] }
  | some target => kbbiRun shell [] target

end Kubeka
