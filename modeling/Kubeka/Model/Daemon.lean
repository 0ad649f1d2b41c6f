import Kubeka.Library.Transition
import Kubeka.Model.Lint
import Kubeka.Model.Periodic

/-!
# The daemon (step 10 of `main`, `kbbi_thread_launch`)

With --daemon `main` starts a thread for each tree, sleeps until the end flag is
set, waits for every thread to set `completed`, and frees the trees and the
table of threads. Main, the threads and the handler of SIGINT take steps in any
order; each of them reads or writes one of the variables that they share at
most, so a step stands for all that is done up to the next of these accesses.
A thread works on a tree of its own, so a run of its node is one step.
-/

namespace Kubeka

/-! ### Signals -/

def sigint : ℕ := 2

/-- `g_endloop` after the handler was called. -/
def sigh (endflag : CInt) (n : ℕ) : CInt := if n = sigint then 1 else endflag

/-! ### Threads -/

/-- Where a thread stands in `th_periodic`. -/
inductive ThreadPlace where
  /-- it was not created -/
  | idle
  | entered
  /-- it returned before the loop -/
  | refused
  /-- the end flag is tested next -/
  | testing (period : Kbperiod) (vars : Periodic)
  /-- in the body of the loop -/
  | body (period : Kbperiod) (vars : Periodic)
  /-- behind the loop; the ID of the node is printed and `completed` is set next -/
  | leaving (ret : CInt)
  /-- `retcode` is set next -/
  | completed (ret : CInt)
  | returned

/-- `struct kbbi_thread_t`, with the tree as it is handed over. -/
structure KbbiThread where
  root : KbTree
  retcode : CInt
  completed : Bool
  place : ThreadPlace

/-- What a thread reads from outside between two accesses to the shared variables. -/
structure Reads where
  /-- about the byte that `parse_unit` reads too far -/
  nul : Bool
  now : ℕ
  reset : ℕ
  shell : Shell

def Reads.tick (r : Reads) (endflag : CInt) : Tick :=
  { endflag := endflag, now := r.now, reset := r.reset, shell := r.shell }

/-- `created` says whether the calls up to `pthread_create` succeed. -/
def kbbiThreadLaunch (created : Bool) (th : KbbiThread) : KbbiThread × Bool :=
  let th := { th with retcode := exitFailure, completed := false }
  match th.root.type with
  | .periodic => if created then ({ th with place := .entered }, true) else (th, false)
  | .job | .entrypoint => (th, false)

/-- The next step of a thread, and the run of its node if it comes to one. -/
def KbbiThread.step (endflag : CInt) (r : Reads) (th : KbbiThread) :
    Option (KbbiThread × Option (KbTree × Ran)) :=
  match th.place with
  | .idle | .refused | .returned => none
  | .entered =>
    match thPeriodicStart r.nul th.root r.now with
    | none => some ({ th with place := .refused }, none)
    | some (period, s) => some ({ th with place := .testing period s }, none)
  | .testing period s =>
    if endflag ≠ 0 ∨ s.counter = 0 then some ({ th with place := .leaving s.ret }, none)
    else some ({ th with place := .body period s }, none)
  | .body period s =>
    let (s', run) := periodicStep period s (r.tick 0)
    some ({ th with place := if s'.done then .leaving s'.ret else .testing period s' }, run)
  | .leaving ret => some ({ th with completed := true, place := .completed ret }, none)
  | .completed ret => some ({ th with retcode := ret, place := .returned }, none)

/-! ### Main -/

/-- Where `main` stands. -/
inductive MainPlace where
  /-- `kbbi_thread_launch` is called for the thread `i` next, if there is one -/
  | launching (i : ℕ)
  /-- `while (g_endloop == 0)` -/
  | watching
  /-- `while (!threads[i].completed)` -/
  | joining (i : ℕ)
  | cleanup (success : Bool)
  /-- the trees and the table of the threads are freed -/
  | freed (success : Bool)
  | exited (success : Bool)
  deriving DecidableEq

structure Daemon where
  endflag : CInt
  threads : List KbbiThread
  main : MainPlace

/-- The handler is set and the table is allocated. -/
def startDaemon (trees : List KbTree) : Daemon where
  endflag := 0
  threads := trees.map fun root =>
    { root := root, retcode := exitFailure, completed := false, place := .idle }
  main := .launching 0

/-- The next step of `main`; `created` is about the thread that it may create. -/
def Daemon.mainStep (created : Bool) (d : Daemon) : Option Daemon :=
  match d.main with
  | .launching i =>
    match d.threads[i]? with
    | none => some { d with main := .watching }
    | some th =>
      let (th', ok) := kbbiThreadLaunch created th
      some { d with threads := d.threads.set i th'
                    main := if ok then .launching (i + 1) else .cleanup false }
  | .watching => some { d with main := if d.endflag = 0 then .watching else .joining 0 }
  | .joining i =>
    match d.threads[i]? with
    | none => some { d with main := .cleanup true }
    | some th => some { d with main := if th.completed then .joining (i + 1) else .joining i }
  | .cleanup success => some { d with main := .freed success }
  | .freed success => some { d with main := .exited success }
  | .exited _ => none

/-! ### Together -/

inductive DaemonEvent where
  | signal (n : ℕ)
  | main (created : Bool)
  | thread (i : ℕ) (reads : Reads)

/-- A run of a node, by the number of its thread. -/
abbrev NodeRun := ℕ × KbTree × Ran

/-- Nothing happens after `main` has returned. -/
def Daemon.step (d : Daemon) (e : DaemonEvent) : Option (Daemon × List NodeRun) :=
  match d.main with
  | .exited _ => none
  | _ =>
    match e with
    | .signal n => some ({ d with endflag := sigh d.endflag n }, [])
    | .main created => (d.mainStep created).map fun d' => (d', [])
    | .thread i r =>
      match d.threads[i]? with
      | none => none
      | some th =>
        (th.step d.endflag r).map fun th' =>
          ({ d with threads := d.threads.set i th'.1 }, (th'.2.map fun run => (i, run)).toList)

/-- A run of the daemon from its start. -/
abbrev DaemonRun (trees : List KbTree) (es : List DaemonEvent) (d : Daemon)
    (out : List NodeRun) : Prop :=
  Transition.Run Daemon.step (startDaemon trees) es d out

/-- The runs that the thread `i` made. -/
def runsBy (i : ℕ) (out : List NodeRun) : List (KbTree × Ran) :=
  (out.filter fun run => run.1 = i).map Prod.snd

end Kubeka
