import Kubeka.Library.Piped
import Kubeka.Model.Processes

/-!
# Commands of several threads (`kbexec_shell` in `kbexec.c`)

The threads of the daemon execute their commands at the same time, and they
share their open files: between its `pipe` and its `close (fds[1])` the end for
writing that a thread has opened is inherited by the children of all others.
What a child starts itself is taken as a part of it; it has ended when nothing
of it is left. The shell that `system` starts for the cleanup inherits the open
ends as well.
-/

namespace Kubeka

open Interaction

/-- The loop of `spawn_child`: `fread` fills the buffer, and what it holds is written when it is
full or the output has ended. -/
def copyLoop (buf : List UInt8) : List UInt8 → List (List UInt8)
  | [] => [buf]
  | b :: inf =>
    if buf.length + 1 = 32 then (buf ++ [b]) :: copyLoop [] inf else copyLoop (buf ++ [b]) inf

/-- The writes of a process; only the output of the command takes more than one. -/
def pipeWrites (acts : List Act) : List (List UInt8) :=
  acts.flatMap fun act => match act with
    | .write bytes => copyLoop [] bytes
    | _ => []

/-- What the system does for the calls of one thread. A child that is forked comes to its
command. -/
structure Host where
  syscalls : Call → Syscalls
  starts : ∀ c, Forks (syscalls c) c.symtab → ChildStarts (syscalls c) c.symtab

/-- The call alone, when the parent reads these pieces. -/
def Host.run (host : Host) (c : Call) (bufs : List (List UInt8)) : ExecRun :=
  kbexecShellRun { host.syscalls c with received := bufs } c.symtab c.command

/-- What the child of a call writes, if there is one. -/
def Host.writes (host : Host) (c : Call) : Option (List (List UInt8)) :=
  (host.run c []).child.map fun p => pipeWrites p.acts

/-- A thread for each tree, which runs the tree once. -/
def runnersOf (trees : List (Host × KbTree)) : List (Host × Prog Call CInt CInt) :=
  trees.map fun t => (t.1, kbbiRunProg [] t.2)

end Kubeka
