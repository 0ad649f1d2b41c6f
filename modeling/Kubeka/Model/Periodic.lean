import Kubeka.Model.Check
import Kubeka.Model.Run

/-!
# Periodic nodes (`th_periodic` in `kbbi.c`, `kbperiod.c`)

The thread of a periodic node looks at the clock about once a second and runs
its node when the period has nothing remaining. Each iteration of the loop is
given what it reads from outside: the end flag, the clock in
`kbperiod_remaining` and in `kbperiod_reset`, and the results of the commands if
it comes to a run. Clock readings are seconds since 1970; they are far from
2^64, so adding a period to one does not wrap around.
-/

namespace Kubeka

/-! ### Periods -/

/-- `unit * nunits`, which is of 32 bits. -/
def Kbperiod.seconds (kbp : Kbperiod) : ℕ := kbp.unit * kbp.nunits % 2 ^ 32

/-- The `exp_time` that `kbperiod_parse` and `kbperiod_reset` set at the time `now`. -/
def kbperiodReset (kbp : Kbperiod) (now : ℕ) : ℕ := now + kbp.seconds

def kbperiodRemaining (expTime now : ℕ) : ℕ := if expTime > now then 0 else now - expTime

/-! ### The thread -/

/-- What one iteration reads. -/
structure Tick where
  endflag : CInt
  /-- the clock in `kbperiod_remaining` -/
  now : ℕ
  /-- the clock in `kbperiod_reset` -/
  reset : ℕ
  shell : Shell

/-- The variables of `th_periodic`; `done` once the loop is left. -/
structure Periodic where
  root : KbTree
  counter : ℕ
  expTime : ℕ
  nerrors : ℕ
  nwarnings : ℕ
  ret : CInt
  done : Bool

/-- `(size_t)-1`: no COUNTER was given. -/
def noCounter : ℕ := 2 ^ 64 - 1

def KbTree.withSymtab : KbTree → Symtab → KbTree
  | .node type _ jobs handlers, symtab => .node type symtab jobs handlers

/-- Up to the loop, at the time `now`; `none` for the early returns. -/
def thPeriodicStart (nul : Bool) (root : KbTree) (now : ℕ) : Option (Kbperiod × Periodic) :=
  match kbnodeGetSrcdef root.symtab with
  | none => none
  | some _ =>
    let period_value := kbnodeGetvalueFirst root.symtab kbnodeKeyPeriod
    let counter_value := kbnodeGetvalueFirst root.symtab kbnodeKeyCounter
    if period_value = [] then none
    else
      match if counter_value = [] then some noCounter else sscanfUnsigned 64 counter_value with
      | none => none
      | some counter =>
        (kbperiodParse nul period_value).map fun period =>
          (period, { root := root, counter := counter, expTime := kbperiodReset period now,
                     nerrors := 0, nwarnings := 0, ret := exitFailure, done := false })

/-- The COUNTER of the node, if it has one, is the number of runs left. -/
def countDown (s : Periodic) : Periodic :=
  if s.counter = noCounter then s
  else
    let counter := s.counter - 1
    { s with
      counter := counter
      root := s.root.withSymtab
        (kbnodeSetSingle s.root.symtab kbnodeKeyCounter 0 (Nat.toDigits 10 counter)).2 }

/-- One iteration: the variables after it, and the tree and the outcome of `kbbi_run` if the node is
started. -/
def periodicStep (period : Kbperiod) (s : Periodic) (tick : Tick) :
    Periodic × Option (KbTree × Ran) :=
  if tick.endflag ≠ 0 then ({ s with done := true }, none)
  else if s.counter = 0 then ({ s with done := true }, none)
  else if kbperiodRemaining s.expTime tick.now ≠ 0 then (s, none)
  else
    let s := countDown { s with expTime := kbperiodReset period tick.reset }
    let r := kbbiRun tick.shell [] s.root
    let nerrors := s.nerrors + r.nerrors
    let s := { s with ret := r.ret, nwarnings := s.nwarnings + r.nwarnings }
    if r.ret ≠ 0 then
      ({ s with nerrors := nerrors + 1, done := decide (nerrors + 1 > 10) }, some (s.root, r))
    else ({ s with nerrors := 0 }, some (s.root, r))

/-- An iteration that was made: the variables before it, what it read and the run it made. -/
structure Iteration where
  before : Periodic
  tick : Tick
  run : Option (KbTree × Ran)

def periodicLoop (period : Kbperiod) : Periodic → List Tick → List Iteration
  | _, [] => []
  | s, tick :: ticks =>
    if s.done then []
    else
      let (s', run) := periodicStep period s tick
      { before := s, tick := tick, run := run } :: periodicLoop period s' ticks

/-- The iterations of the thread, started at the time `now`. -/
def thPeriodic (nul : Bool) (root : KbTree) (now : ℕ) (ticks : List Tick) : List Iteration :=
  match thPeriodicStart nul root now with
  | none => []
  | some (period, s) => periodicLoop period s ticks

end Kubeka
