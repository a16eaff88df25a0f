import LearningLinux.Lib.Threads

/-!
# The bounded buffer of `producer_consumer/main.c`

The globals of the program, its two thread functions and the threads that run
them. A thread stands at one of the statements of its loop body, `Pc`, and a
step executes that statement; the mutex, its two condition variables and what
a signal may wake are those of `Lib.Monitor`, so a thread inside
`pthread_cond_wait` is `blocked` until it has been woken and has the mutex
again.

`puts` and `gets` record what was passed to `put()` and returned by `get()`,
in this order. No statement reads them.
-/

namespace LearningLinux.ProducerConsumer

open LearningLinux.Lib

def MAX : Nat := 10

inductive Cond where
  | empty_cond
  | fill_cond
deriving DecidableEq, Repr

/-- What a thread was created with: its function and the loop count. -/
inductive Routine where
  | produce (loops : Int)
  | consume (loops : Int)
deriving DecidableEq, Repr

inductive Pc where
  /-- `i < loops` of the `for`. -/
  | test
  /-- `pthread_mutex_lock`. -/
  | lock
  /-- `while (count == MAX)` or `if (count == 0)`. -/
  | check
  /-- `pthread_cond_wait`, before the mutex is released. -/
  | wait
  /-- `pthread_cond_wait`, before the mutex is taken back. -/
  | blocked
  /-- `put(i)` or `get()`. -/
  | access
  /-- `pthread_cond_signal`. -/
  | signal
  /-- `pthread_mutex_unlock`. -/
  | unlock
  | done
deriving DecidableEq, Repr

variable {ι : Type*} [DecidableEq ι]

structure State (ι : Type*) where
  buffer : Nat → Int
  fill : Nat
  use : Nat
  count : Int
  mon : Monitor ι Cond
  pc : ι → Pc
  i : ι → Int
  puts : List Int
  gets : List Int

namespace State

def init : State ι where
  buffer := fun _ => 0
  fill := 0
  use := 0
  count := 0
  mon := Monitor.free
  pc := fun _ => .test
  i := fun _ => 0
  puts := []
  gets := []

/-! ## The buffer -/

def put (s : State ι) (value : Int) : State ι :=
  { s with
    buffer := Function.update s.buffer s.fill value
    fill := (s.fill + 1) % MAX
    count := s.count + 1
    puts := s.puts ++ [value] }

def get (s : State ι) : State ι :=
  { s with
    use := (s.use + 1) % MAX
    count := s.count - 1
    gets := s.gets ++ [s.buffer s.use] }

/-! ## The threads -/

def goto (s : State ι) (t : ι) (p : Pc) : State ι :=
  { s with
    pc := Function.update s.pc t p }

def withMon (s : State ι) (m : Monitor ι Cond) : State ι :=
  { s with
    mon := m }

/-- `i++`, at the end of the loop body. -/
def advance (s : State ι) (t : ι) : State ι :=
  { s with
    i := Function.update s.i t (s.i t + 1) }

/-- One statement of `produce`. -/
def produce (loops : Int) (s : State ι) (t : ι) (woken : Finset ι) :
    Option (State ι) :=
  match s.pc t with
  | .test => some (s.goto t (if s.i t < loops then .lock else .done))
  | .lock => (s.mon.lock t).map (s.goto t .check).withMon
  | .check => some (s.goto t (if s.count = MAX then .wait else .access))
  | .wait => (s.mon.wait .empty_cond t).map (s.goto t .blocked).withMon
  -- the wait is in a `while`: its condition is tested again
  | .blocked => (s.mon.relock .empty_cond t).map (s.goto t .check).withMon
  | .access => some ((s.put (s.i t)).goto t .signal)
  | .signal => (s.mon.signal .fill_cond woken).map (s.goto t .unlock).withMon
  | .unlock =>
      (s.mon.unlock t).map ((s.advance t).goto t .test).withMon
  | .done => none

/-- One statement of `consume`. -/
def consume (loops : Int) (s : State ι) (t : ι) (woken : Finset ι) :
    Option (State ι) :=
  match s.pc t with
  | .test => some (s.goto t (if s.i t < loops then .lock else .done))
  | .lock => (s.mon.lock t).map (s.goto t .check).withMon
  | .check => some (s.goto t (if s.count = 0 then .wait else .access))
  | .wait => (s.mon.wait .fill_cond t).map (s.goto t .blocked).withMon
  -- the wait is in an `if`: the thread goes on to `get()`
  | .blocked => (s.mon.relock .fill_cond t).map (s.goto t .access).withMon
  | .access => some (s.get.goto t .signal)
  | .signal => (s.mon.signal .empty_cond woken).map (s.goto t .unlock).withMon
  | .unlock =>
      (s.mon.unlock t).map ((s.advance t).goto t .test).withMon
  | .done => none

end State

/-! ## Runs -/

/-- What the scheduler chooses: a thread to move, with the threads woken if it
signals, or a spurious wake-up. -/
inductive Act (ι : Type*) where
  | run (t : ι) (woken : Finset ι)
  | spurious (c : Cond) (t : ι)

variable (prog : ι → Routine)

def step (s : State ι) : Act ι → Option (State ι)
  | .run t woken =>
      match prog t with
      | .produce loops => s.produce loops t woken
      | .consume loops => s.consume loops t woken
  | .spurious c t => (s.mon.wake c t).map s.withMon

end LearningLinux.ProducerConsumer
