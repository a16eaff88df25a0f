import LearningLinux.Lib.Iterate
import Mathlib.Algebra.GroupWithZero.Nat
import Mathlib.Data.List.Basic

/-!
# The process scheduler simulator, as `process-run.py` computes it

`ProcManager` keeps one record per process and `Scheduler` drives them with a
clock. Both are dictionaries keyed by the pid, and the pids are `0 .. n - 1`
in insertion order, so the model keeps one function per dictionary and walks
`List.range n` wherever the source walks `get_all_pids()`.

A failed `assert` ends the run, so every operation that asserts answers in
`Option` and `none` is the `AssertionError`. The printing functions write to
the terminal and change nothing, and the command-line parsing draws the
instruction lists at random; neither is here. `run` takes the instruction
lists themselves.
-/

namespace LearningLinux.ProcessRun

/-- `DO_COMPUTE` and `DO_IO`: the things a process can do. -/
inductive Instr where
  | cpu
  | io
  deriving DecidableEq, Repr

/-- The four values of `PROC_STATE`. -/
inductive ProcState where
  | running
  | ready
  | done
  | wait
  deriving DecidableEq, Repr

/-- `process_switch_behavior`. -/
inductive SwitchBehavior where
  | onIo
  | onEnd
  deriving DecidableEq, Repr

/-- `io_done_behavior`. -/
inductive IoDoneBehavior where
  | runLater
  | runImmediate
  deriving DecidableEq, Repr

/-- The three arguments of `Scheduler.run`. -/
structure Policy where
  switch : SwitchBehavior
  ioDone : IoDoneBehavior
  ioLength : Nat

/-- The process table and the scheduler's own variables. `state` and `code`
are the fields `PROC_STATE` and `PROC_CODE` of `_proc_info`; `PROC_PC` and
`PROC_ID` are written once and never read. -/
structure Sched where
  numProcs : Nat
  state : Nat → ProcState
  code : Nat → List Instr
  ioFinishTimes : Nat → List Nat
  currProc : Nat
  clockTick : Nat
  cpuBusy : Nat
  ioBusy : Nat

/-! ## `ProcManager` -/

def getAllPids (s : Sched) : List Nat := List.range s.numProcs

/-- The common body of the four `move_to_*` methods: the assertion on the
state the process is in, then the assignment. -/
def moveTo (dst : ProcState) (pid : Nat) (currState : ProcState) (s : Sched) :
    Option Sched :=
  if s.state pid = currState then
    some { s with state := Function.update s.state pid dst }
  else none

def moveToReady := moveTo .ready
def moveToWait := moveTo .wait
def moveToRunning := moveTo .running
def moveToDone := moveTo .done

def getNumInstructions (pid : Nat) (s : Sched) : Nat := (s.code pid).length

/-- `pop_next_instruction`: the empty string of the source is `none`. -/
def popNextInstruction (pid : Nat) (s : Sched) : Option Instr × Sched :=
  match s.code pid with
  | [] => (none, s)
  | i :: rest => (some i, { s with code := Function.update s.code pid rest })

/-! ## `Scheduler` -/

def hasActiveProc (s : Sched) : Bool :=
  decide (0 < (getAllPids s).countP fun pid => s.state pid != .done)

def getNumRunnable (s : Sched) : Nat :=
  (getAllPids s).countP fun pid =>
    s.state pid == .ready || s.state pid == .running

def getIosInFlight (currentTime : Nat) (s : Sched) : Nat :=
  ((getAllPids s).map fun pid =>
    (s.ioFinishTimes pid).countP fun t => decide (currentTime < t)).sum

/-- The `for` loop of `_next_proc`. It has no `break`: every ready process on
the list is moved to running, and the last one is left in `curr_proc`. -/
def nextProcLoop : List Nat → Sched → Option Sched
  | [], s => some s
  | pid :: rest, s =>
      if s.state pid = .ready then do
        let s₁ ← moveToRunning pid .ready { s with currProc := pid }
        nextProcLoop rest s₁
      else nextProcLoop rest s

/-- `_next_proc`: the pids after the current one, then those before it. -/
def nextProc (s : Sched) : Option Sched :=
  let pidList := getAllPids s
  nextProcLoop (pidList.drop (s.currProc + 1) ++ pidList.take s.currProc) s

def finishProcIfDone (s : Sched) : Option Sched :=
  if getNumInstructions s.currProc s = 0 ∧ s.state s.currProc = .running then do
    let s₁ ← moveToDone s.currProc .running s
    nextProc s₁
  else some s

/-- What `_handle_io_done_proc` does for one pid whose IO finishes now. -/
def ioDone (ioDoneBehavior : IoDoneBehavior) (pid : Nat) (s : Sched) :
    Option Sched := do
  let s₁ ← moveToReady pid .wait s
  let s₂ ← match ioDoneBehavior with
    | .runImmediate => do
        let s₂ ← if s₁.currProc ≠ pid ∧ s₁.state s₁.currProc = .running then
            moveToReady s₁.currProc .running s₁
          else some s₁
        moveToRunning pid .ready { s₂ with currProc := pid }
    | .runLater =>
        if getNumRunnable s₁ = 1 then
          moveToRunning pid .ready { s₁ with currProc := pid }
        else some s₁
  finishProcIfDone s₂

/-- The `for` loop of `_handle_io_done_proc`, over the pids still to visit.
Its answer `io_done` only feeds the trace that is printed. -/
def handleIoDoneLoop (clockTick : Nat) (ioDoneBehavior : IoDoneBehavior) :
    List Nat → Sched → Option Sched
  | [], s => some s
  | pid :: rest, s =>
      if clockTick ∈ s.ioFinishTimes pid then do
        let s₁ ← ioDone ioDoneBehavior pid s
        handleIoDoneLoop clockTick ioDoneBehavior rest s₁
      else handleIoDoneLoop clockTick ioDoneBehavior rest s

def handleIoDoneProc (clockTick : Nat) (ioDoneBehavior : IoDoneBehavior)
    (s : Sched) : Option Sched :=
  handleIoDoneLoop clockTick ioDoneBehavior (getAllPids s) s

/-- The instruction the current process executes in this tick, if it is
running at all. -/
def fetch (s : Sched) : Option Instr × Sched :=
  if s.state s.currProc = .running then
    let (i, s₁) := popNextInstruction s.currProc s
    (i, { s₁ with cpuBusy := s₁.cpuBusy + 1 })
  else (none, s)

/-- Issuing an IO: the current process waits, and `SWITCH_ON_IO` looks for
another one. -/
def issueIo (p : Policy) (s : Sched) : Option Sched := do
  let pid := s.currProc
  let s₁ ← moveToWait pid .running s
  let times := s₁.ioFinishTimes pid ++ [s₁.clockTick + p.ioLength]
  let s₂ :=
    { s₁ with ioFinishTimes := Function.update s₁.ioFinishTimes pid times }
  if p.switch = .onIo then nextProc s₂ else some s₂

/-- The statements of one tick after the IO completions have been handled. -/
def execute (p : Policy) (s : Sched) : Option Sched := do
  let (nextInstruction, s₁) := fetch s
  let s₂ := if 0 < getIosInFlight s₁.clockTick s₁ then
      { s₁ with ioBusy := s₁.ioBusy + 1 }
    else s₁
  let s₃ ← if nextInstruction = some .io then issueIo p s₂ else some s₂
  finishProcIfDone s₃

/-- One iteration of the `while` loop of `Scheduler.run`. -/
def tick (p : Policy) (s : Sched) : Option Sched := do
  let s₁ := { s with clockTick := s.clockTick + 1 }
  let s₂ ← handleIoDoneProc s₁.clockTick p.ioDone s₁
  execute p s₂

/-- The table `ProcManager` builds from the instruction lists, after
`Scheduler._clean`. -/
def init (codes : List (List Instr)) : Sched where
  numProcs := codes.length
  state := fun _ => .ready
  code := fun pid => codes.getD pid []
  ioFinishTimes := fun _ => []
  currProc := 0
  clockTick := 0
  cpuBusy := 0
  ioBusy := 0

/-- The state in which the `while` loop is entered. -/
def start (codes : List (List Instr)) : Option Sched :=
  moveToRunning (init codes).currProc .ready (init codes)

/-- How a run ends, or that the given number of ticks was not enough. -/
inductive Outcome where
  | returned (s : Sched)
  | assertionError
  | outOfFuel

/-- The `while` loop of `Scheduler.run`, at most `fuel` ticks of it. -/
def loop (p : Policy) : Nat → Sched → Outcome
  | 0, s => if hasActiveProc s then .outOfFuel else .returned s
  | fuel + 1, s =>
      if hasActiveProc s then
        match tick p s with
        | none => .assertionError
        | some s₁ => loop p fuel s₁
      else .returned s

/-- `Scheduler.run`: with no process it returns before the first tick. -/
def run (p : Policy) (codes : List (List Instr)) (fuel : Nat) : Outcome :=
  if codes.length = 0 then .returned (init codes)
  else
    match start codes with
    | none => .assertionError
    | some s => loop p fuel s

/-- The `while` loop as a partial step: a tick, taken only while some process
is active. -/
def loopStep (p : Policy) (s : Sched) : Option Sched :=
  if hasActiveProc s then tick p s else none

/-- The state at the end of the `k`-th clock tick of `Scheduler.run`; `none`
when the run is over, or an assertion has failed, before that. -/
def endOfTick (p : Policy) (codes : List (List Instr)) (k : Nat) :
    Option Sched :=
  if codes.length = 0 ∨ k = 0 then none
  else (start codes).bind (Lib.iter (loopStep p) k)

end LearningLinux.ProcessRun
