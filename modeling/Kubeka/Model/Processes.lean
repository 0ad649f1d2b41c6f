import Kubeka.Library.Interaction
import Kubeka.Model.Exec

/-!
# A run as a program (`kbbi.c`)

`kbbi_run` and `kbbi_rollback` once more, as programs whose calls are those of
`kbexec_shell`. Since the rest of the run is the continuation of each call, a
child that returns from `kbexec_shell` can be followed. Counts and messages,
on which no call depends, are left out.
-/

namespace Kubeka

open Interaction

/-- A call of `kbexec_shell` for the node at a place: the command at a position of a key. -/
structure Call where
  path : Path
  key : CStr
  index : ℕ
  symtab : Symtab
  command : CStr

/-- Where in a run a command stands. -/
def Call.place (c : Call) : Path × CStr × ℕ := (c.path, c.key, c.index)

/-! ### Rollback -/

/-- The loop over the actions; the results are only printed. -/
def actionsProg (p : Path) (st : Symtab) : ℕ → List CStr → Prog Call CInt Unit
  | _, [] => .done ()
  | i, a :: actions =>
    .call ⟨p, kbnodeKeyRollback, i, st, a⟩ fun _ => actionsProg p st (i + 1) actions

def kbbiRollbackProg (p : Path) (st : Symtab) : Prog Call CInt Unit :=
  match kbnodeGetSrcdef st with
  | none => .done ()
  | some _ =>
    match kbnodeGetvalueAll st kbnodeKeyRollback with
    | [] | [] :: _ => .done ()
    | actions => actionsProg p st 0 actions

def rollbackJobProg (p : Path) (jobs : List KbTree) (j : ℕ) : Prog Call CInt Unit :=
  match jobs[j]? with
  | none => .done ()
  | some job => kbbiRollbackProg (p ++ [.job j]) job.symtab

/-- `for (j = i; j > 0; j--)`, and then the job at 0. -/
def unwindJobsProg (p : Path) (jobs : List KbTree) : ℕ → Prog Call CInt Unit
  | 0 => rollbackJobProg p jobs 0
  | j + 1 => (rollbackJobProg p jobs (j + 1)).bind fun _ => unwindJobsProg p jobs j

/-! ### Nodes -/

/-- The loop over EXEC, with the variables `ret` and `done`. -/
def commandsProg (p : Path) (st : Symtab) : ℕ → List CStr → CInt → Bool →
    Prog Call CInt (CInt × Bool)
  | _, [], ret, done => .done (ret, done)
  | i, cmd :: cmds, ret, done =>
    if cmd = [] then .done (ret, done)
    else .call ⟨p, kbnodeKeyExec, i, st, cmd⟩ fun rc =>
      commandsProg p st (i + 1) cmds (ret ||| rc) true

mutual

def kbbiRunProg (p : Path) : KbTree → Prog Call CInt CInt
  | .node _ st jobs handlers =>
    match kbnodeGetSrcdef st with
    | none => .done exitFailure
    | some _ =>
      (handlersProg p (kbnodeGetvalueAll st kbnodeKeyEmits) 0 handlers 0 false).bind fun r =>
        if r.2 then .done r.1
        else
          (commandsProg p st 0 (kbnodeGetvalueAll st kbnodeKeyExec) r.1 false).bind fun r =>
            if r.2 then .done r.1 else jobsProg p jobs 0 jobs r.1

def handlersProg (p : Path) (signals : List CStr) : ℕ → List KbTree → CInt → Bool →
    Prog Call CInt (CInt × Bool)
  | _, [], ret, done => .done (ret, done)
  | i, h :: hs, ret, done =>
    if nodeFilterHandlers h.symtab signals then
      (kbbiRunProg (p ++ [.handler i]) h).bind fun rc =>
        handlersProg p signals (i + 1) hs (ret + rc) true
    else handlersProg p signals (i + 1) hs ret done

/-- The jobs from position `i` on; `all` are the jobs to roll back. -/
def jobsProg (p : Path) (all : List KbTree) : ℕ → List KbTree → CInt → Prog Call CInt CInt
  | _, [], ret => .done ret
  | i, job :: jobs, _ =>
    (kbbiRunProg (p ++ [.job i]) job).bind fun ret =>
      if ret ≠ 0 then (unwindJobsProg p all i).bind fun _ => .done ret
      else jobsProg p all (i + 1) jobs ret

end

/-! ### Processes -/

/-- What the system does during a call: in which process, for the node at which place, which key
and which position. -/
abbrev System := Pid → Path → CStr → ℕ → Syscalls

def Call.syscalls (c : Call) (os : System) (pid : Pid) : Syscalls := os pid c.path c.key c.index

def Call.run (c : Call) (os : System) (pid : Pid) : ExecRun :=
  kbexecShellRun (c.syscalls os pid) c.symtab c.command

/-- What the parent returns from the call, and the child if it does. -/
def Call.answers (os : System) (pid : Pid) (c : Call) : Answers CInt where
  parent := (c.run os pid).ret
  child := (c.run os pid).childRet

/-- The calls of all processes that come from one that runs the tree. -/
def processCalls (os : System) (t : KbTree) : List (Pid × Call) :=
  (kbbiRunProg [] t).calls (Call.answers os) [] 0

/-- The calls of the first process. -/
def firstCalls (os : System) (t : KbTree) : List Call :=
  ((kbbiRunProg [] t).run fun c => (Call.answers os [] c).parent).2

/-- What the commands return in the first process. -/
def firstShell (os : System) (t : KbTree) : Shell := fun p key i =>
  match t.at? [] p with
  | none => 0
  | some (_, n) =>
    (kbexecShellRun (os [] p key i) n.symtab ((kbnodeGetvalueAll n.symtab key).getD i [])).ret

end Kubeka
