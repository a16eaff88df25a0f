import LearningLinux.Lib.Threads
import Mathlib.Algebra.BigOperators.Group.Finset.Basic

/-!
# The thread pool of `thread_pool/tpool.cpp`

The pool's fields, the nodes of its work queue in a heap of their own, and the
threads that work on them: the `n` workers in `thread_start`, any number of
threads that call `add_task_2_tpool`, and the one that calls `destroy_tpool`.
Each thread stands at a statement of its function. The two operands of the
workers' loop condition are two statements, because `shutdown` is written
without the lock and may change between them.

What C leaves undefined has no step: a null or freed node is not read or
written, and nothing happens to a pool once it has been freed.

Four lists record what happened to the tasks, in this order: `added`,
`dequeued`, `ran` and `freed`. They are not read, and neither is the `ticket`
of a node, the number its task was added under.
-/

namespace LearningLinux.ThreadPool

open LearningLinux.Lib

abbrev Addr := Nat

/-- `work_queue_t`; `routine` stands for the function and its argument. -/
structure WorkQueue (τ : Type*) where
  routine : τ
  next : Option Addr
  ticket : Nat
deriving DecidableEq, Repr

/-- A task that has been added. -/
structure Task (τ : Type*) where
  routine : τ
  ticket : Nat
deriving DecidableEq, Repr

inductive Thread (n : Nat) (κ : Type*) where
  | worker (w : Fin n)
  | adder (k : κ)
  | destroyer
deriving DecidableEq, Repr

/-- The statements of `thread_start`. -/
inductive WorkerPc where
  | lock
  /-- `!pool->work_queue_head` -/
  | testHead
  /-- `&& !pool->shutdown` -/
  | testShutdown
  /-- `pthread_cond_wait`, before the lock is released -/
  | wait
  /-- `pthread_cond_wait`, before the lock is taken back -/
  | blocked
  | ifShutdown
  | exitUnlock
  | exited
  | dequeue
  | unlock (work : Addr)
  | run (work : Addr)
  | free (work : Addr)
deriving DecidableEq, Repr

/-- The statements of `add_task_2_tpool`, from the allocation on. -/
inductive AdderPc where
  | idle
  | lock (new_work : Addr)
  /-- `NULL == last_work` -/
  | testHead (new_work : Addr)
  | setHead (new_work : Addr)
  /-- `while (last_work->next)` -/
  | walk (new_work last_work : Addr)
  | link (new_work last_work : Addr)
  | signal
  | unlock
deriving DecidableEq, Repr

/-- The statements of `destroy_tpool`. -/
inductive DestroyerPc where
  | idle
  | test
  | setShutdown
  | lock
  | broadcast
  | unlock
  | join (i : Nat)
  /-- `while (pool->work_queue_head)` -/
  | drain
  /-- the mutex, the condition variable and the pool go -/
  | free
  | done
deriving DecidableEq, Repr

/-- The pool `tpool_t` of `n` threads, the heap and the threads. -/
structure State (n : Nat) (κ τ : Type*) where
  shutdown : Bool
  work_queue_head : Option Addr
  mon : Monitor (Thread n κ) Unit
  freedPool : Bool
  heap : Addr → Option (WorkQueue τ)
  worker : Fin n → WorkerPc
  adder : κ → AdderPc
  destroyer : DestroyerPc
  added : List (Task τ)
  dequeued : List (Task τ)
  ran : List (Task τ)
  freed : List (Task τ)

variable {n : Nat} {κ τ : Type*}

/-- The pool as `create_tpool` leaves it. -/
def init : State n κ τ where
  shutdown := false
  work_queue_head := none
  mon := Monitor.free
  freedPool := false
  heap := fun _ => none
  worker := fun _ => .lock
  adder := fun _ => .idle
  destroyer := .idle
  added := []
  dequeued := []
  ran := []
  freed := []

namespace State

def taskAt (s : State n κ τ) (a : Addr) : Option (Task τ) :=
  (s.heap a).map fun w => ⟨w.routine, w.ticket⟩

def nextAt (s : State n κ τ) (a : Addr) : Option Addr :=
  (s.heap a).bind (·.next)

def workerTo (s : State n κ τ) (w : Fin n) (p : WorkerPc) : State n κ τ :=
  { s with
    worker := Function.update s.worker w p }

def adderTo [DecidableEq κ] (s : State n κ τ) (k : κ) (p : AdderPc) :
    State n κ τ :=
  { s with
    adder := Function.update s.adder k p }

def destroyerTo (s : State n κ τ) (p : DestroyerPc) : State n κ τ :=
  { s with
    destroyer := p }

def withMon (s : State n κ τ) (m : Monitor (Thread n κ) Unit) :
    State n κ τ :=
  { s with
    mon := m }

/-- `free`. -/
def release (s : State n κ τ) (a : Addr) : State n κ τ :=
  { s with
    heap := Function.update s.heap a none }

/-- One round of the loop in which `destroy_tpool` frees the queue. -/
def freeHead (s : State n κ τ) (a : Addr) : Option (State n κ τ) :=
  (s.heap a).map fun node =>
    { s.release a with
      work_queue_head := node.next
      freed := s.freed ++ [⟨node.routine, node.ticket⟩] }

/-- The new node is in the queue now, and its task has been added. -/
def enqueued (s : State n κ τ) (new_work : Addr) (node : WorkQueue τ) :
    State n κ τ :=
  { s with
    heap := Function.update s.heap new_work
      (some { node with
        ticket := s.added.length })
    added := s.added ++ [⟨node.routine, s.added.length⟩] }

/-! ## `thread_start` -/

/-- `work = pool->work_queue_head` and the head moves on. -/
def takeHead (s : State n κ τ) (w : Fin n) : Option (State n κ τ) :=
  s.work_queue_head.bind fun work =>
    (s.heap work).map fun node =>
      { s.workerTo w (.unlock work) with
        work_queue_head := node.next
        dequeued := s.dequeued ++ [⟨node.routine, node.ticket⟩] }

/-- `work->work_routine(work->args)`. -/
def runTask (s : State n κ τ) (w : Fin n) (work : Addr) :
    Option (State n κ τ) :=
  (s.heap work).map fun node =>
    { s.workerTo w (.free work) with
      ran := s.ran ++ [⟨node.routine, node.ticket⟩] }

variable [DecidableEq κ]

def threadStart (s : State n κ τ) (w : Fin n) : Option (State n κ τ) :=
  let t := Thread.worker w
  match s.worker w with
  | .lock => (s.mon.lock t).map (s.workerTo w .testHead).withMon
  | .testHead =>
      some (s.workerTo w
        (if s.work_queue_head = none then .testShutdown else .ifShutdown))
  | .testShutdown =>
      some (s.workerTo w (if s.shutdown then .ifShutdown else .wait))
  | .wait => (s.mon.wait () t).map (s.workerTo w .blocked).withMon
  | .blocked => (s.mon.relock () t).map (s.workerTo w .testHead).withMon
  | .ifShutdown =>
      some (s.workerTo w (if s.shutdown then .exitUnlock else .dequeue))
  | .exitUnlock => (s.mon.unlock t).map (s.workerTo w .exited).withMon
  | .exited => none
  | .dequeue => s.takeHead w
  | .unlock work => (s.mon.unlock t).map (s.workerTo w (.run work)).withMon
  | .run work => s.runTask w work
  | .free work => some ((s.release work).workerTo w .lock)

/-! ## `add_task_2_tpool` -/

/-- The new node, allocated and filled in. -/
def alloc (s : State n κ τ) (a : Addr) (routine : τ) : State n κ τ :=
  { s with
    heap := Function.update s.heap a (some ⟨routine, none, 0⟩) }

/-- The call, up to the lock. The node is at an address that is not in use. -/
def call (s : State n κ τ) (k : κ) (routine : τ) (new_work : Addr) :
    Option (State n κ τ) :=
  if s.adder k = .idle ∧ s.heap new_work = none then
    some ((s.alloc new_work routine).adderTo k (.lock new_work))
  else none

/-- `pool->work_queue_head = new_work`. -/
def setHead (s : State n κ τ) (k : κ) (new_work : Addr) :
    Option (State n κ τ) :=
  (s.heap new_work).map fun node =>
    { (s.enqueued new_work node).adderTo k .signal with
      work_queue_head := some new_work }

/-- `last_work->next = new_work`. -/
def link (s : State n κ τ) (k : κ) (new_work last_work : Addr) :
    Option (State n κ τ) :=
  (s.heap new_work).bind fun node =>
    let s := s.enqueued new_work node
    (s.heap last_work).map fun last =>
      { s.adderTo k .signal with
        heap := Function.update s.heap last_work
          (some { last with
            next := some new_work }) }

def addTask2Tpool (s : State n κ τ) (k : κ) (woken : Finset (Thread n κ)) :
    Option (State n κ τ) :=
  let t := Thread.adder k
  match s.adder k with
  | .idle => none
  | .lock new_work =>
      (s.mon.lock t).map (s.adderTo k (.testHead new_work)).withMon
  | .testHead new_work =>
      some (s.adderTo k
        (match s.work_queue_head with
        | none => .setHead new_work
        | some last_work => .walk new_work last_work))
  | .setHead new_work => s.setHead k new_work
  | .walk new_work last_work =>
      (s.heap last_work).map fun last =>
        s.adderTo k
          (match last.next with
          | none => .link new_work last_work
          | some last_work => .walk new_work last_work)
  | .link new_work last_work => s.link k new_work last_work
  | .signal => (s.mon.signal () woken).map (s.adderTo k .unlock).withMon
  | .unlock => (s.mon.unlock t).map (s.adderTo k .idle).withMon

/-! ## `destroy_tpool` -/

def destroyTpool (s : State n κ τ) : Option (State n κ τ) :=
  let t := Thread.destroyer
  match s.destroyer with
  | .idle => some (s.destroyerTo .test)
  | .test => some (s.destroyerTo (if s.shutdown then .done else .setShutdown))
  | .setShutdown =>
      some { s.destroyerTo .lock with
        shutdown := true }
  | .lock => (s.mon.lock t).map (s.destroyerTo .broadcast).withMon
  | .broadcast => some ((s.destroyerTo .unlock).withMon (s.mon.broadcast ()))
  | .unlock => (s.mon.unlock t).map (s.destroyerTo (.join 0)).withMon
  | .join i =>
      if h : i < n then
        if s.worker ⟨i, h⟩ = .exited then some (s.destroyerTo (.join (i + 1)))
        else none
      else some (s.destroyerTo .drain)
  | .drain =>
      match s.work_queue_head with
      | none => some (s.destroyerTo .free)
      | some a => s.freeHead a
  | .free =>
      some { s.destroyerTo .done with
        freedPool := true }
  | .done => none

end State

/-! ## Runs -/

/-- What the scheduler chooses: a thread to move, with the threads woken if it
signals, a new call of `add_task_2_tpool`, or a spurious wake-up. -/
inductive Act (n : Nat) (κ τ : Type*) where
  | worker (w : Fin n)
  | call (k : κ) (routine : τ) (new_work : Addr)
  | adder (k : κ) (woken : Finset (Thread n κ))
  | destroyer
  | spurious (t : Thread n κ)

def step [DecidableEq κ] (s : State n κ τ) (a : Act n κ τ) :
    Option (State n κ τ) :=
  if s.freedPool then none
  else
    match a with
    | .worker w => s.threadStart w
    | .call k routine new_work => s.call k routine new_work
    | .adder k woken => s.addTask2Tpool k woken
    | .destroyer => s.destroyTpool
    | .spurious t => (s.mon.wake () t).map s.withMon

end LearningLinux.ThreadPool
