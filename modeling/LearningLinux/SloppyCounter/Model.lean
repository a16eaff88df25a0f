import LearningLinux.Lib.Threads
import Mathlib.Algebra.Ring.Int.Defs
import Mathlib.Data.Fintype.Basic

/-!
# The sloppy counter of `sloppy_counter/main.c`

A global counter and one local counter for each processor, each under a lock
of its own. `update` adds to a local counter and moves its value to the global
one when it has reached the threshold; `get` reads the global counter only.

A thread stands at a lock, an unlock or an assignment of one of the two
functions, and a step executes that statement. Any thread may call either
function, with any arguments, whenever it is in neither. Three things are
recorded that no statement reads: the sums of the amounts of the updates that
have been called and that have returned, and, with each value that `get`
returns, what these sums were when it read the counter.
-/

namespace LearningLinux.SloppyCounter

open LearningLinux.Lib

def NUMBCPUS : Nat := 4

/-- Arithmetic on `int` keeps the low 32 bits. -/
def toInt (x : Int) : Int := Int.bmod x (2 ^ 32)

/-- A value read by `get`, with the amounts completed and started so far. -/
structure Reading where
  val : Int
  completed : Int
  started : Int
deriving DecidableEq, Repr

/-- The statement a thread is at, with its arguments. -/
inductive Pc where
  | idle
  | lockLocal (threadID : Fin NUMBCPUS) (amt : Int)
  | add (threadID : Fin NUMBCPUS) (amt : Int)
  | test (threadID : Fin NUMBCPUS) (amt : Int)
  | lockGlobal (threadID : Fin NUMBCPUS) (amt : Int)
  | transfer (threadID : Fin NUMBCPUS) (amt : Int)
  | unlockGlobal (threadID : Fin NUMBCPUS) (amt : Int)
  | clear (threadID : Fin NUMBCPUS) (amt : Int)
  | unlockLocal (threadID : Fin NUMBCPUS) (amt : Int)
  | getLock
  | getRead
  | getUnlock (r : Reading)
deriving DecidableEq, Repr

/-- `counter_t`, the threads that use it and the record of their calls. -/
structure State (ι : Type*) where
  global : Int
  glock : Option ι
  locals : Fin NUMBCPUS → Int
  llock : Fin NUMBCPUS → Option ι
  threshold : Int
  pc : ι → Pc
  started : Int
  completed : Int
  returned : List Reading

variable {ι : Type*}

def init (threshold : Int) : State ι where
  global := 0
  glock := none
  locals := fun _ => 0
  llock := fun _ => none
  threshold := threshold
  pc := fun _ => .idle
  started := 0
  completed := 0
  returned := []

namespace State

variable [DecidableEq ι]

def goto (s : State ι) (t : ι) (p : Pc) : State ι :=
  { s with
    pc := Function.update s.pc t p }

def setLocal (s : State ι) (id : Fin NUMBCPUS) (v : Int) : State ι :=
  { s with
    locals := Function.update s.locals id v }

def setLLock (s : State ι) (id : Fin NUMBCPUS) (o : Option ι) : State ι :=
  { s with
    llock := Function.update s.llock id o }

def setGLock (s : State ι) (o : Option ι) : State ι :=
  { s with
    glock := o }

/-- The statement thread `t` is at. A lock is not passed while it is held. -/
def stmt (s : State ι) (t : ι) : Option (State ι) :=
  match s.pc t with
  | .idle => none
  | .lockLocal id amt =>
      if s.llock id = none then
        some ((s.setLLock id (some t)).goto t (.add id amt))
      else none
  | .add id amt =>
      some ((s.setLocal id (toInt (s.locals id + amt))).goto t (.test id amt))
  | .test id amt =>
      some (s.goto t (if s.threshold ≤ s.locals id then .lockGlobal id amt
        else .unlockLocal id amt))
  | .lockGlobal id amt =>
      if s.glock = none then
        some ((s.setGLock (some t)).goto t (.transfer id amt))
      else none
  | .transfer id amt =>
      some { s.goto t (.unlockGlobal id amt) with
        global := toInt (s.global + s.locals id) }
  | .unlockGlobal id amt =>
      some ((s.setGLock none).goto t (.clear id amt))
  | .clear id amt =>
      some ((s.setLocal id 0).goto t (.unlockLocal id amt))
  | .unlockLocal id amt =>
      some { (s.setLLock id none).goto t .idle with
        completed := s.completed + amt }
  | .getLock =>
      if s.glock = none then
        some ((s.setGLock (some t)).goto t .getRead)
      else none
  | .getRead =>
      some (s.goto t (.getUnlock ⟨s.global, s.completed, s.started⟩))
  | .getUnlock r =>
      some { (s.setGLock none).goto t .idle with
        returned := s.returned ++ [r] }

end State

/-! ## Runs -/

/-- What happens next: a thread calls one of the functions, or executes the
statement it is at. -/
inductive Act (ι : Type*) where
  | update (t : ι) (threadID : Fin NUMBCPUS) (amt : Int)
  | get (t : ι)
  | run (t : ι)
deriving DecidableEq, Repr

/-- The amount of the update a choice calls. -/
def Act.amount : Act ι → Int
  | .update _ _ amt => amt
  | .get _ | .run _ => 0

variable [DecidableEq ι]

def step (s : State ι) : Act ι → Option (State ι)
  | .update t id amt =>
      if s.pc t = .idle then
        some { s.goto t (.lockLocal id amt) with
          started := s.started + amt }
      else none
  | .get t => if s.pc t = .idle then some (s.goto t .getLock) else none
  | .run t => s.stmt t

variable {s s' : State ι} {t : ι}

theorem stmt_frame (hs : s.stmt t = some s') :
    s'.threshold = s.threshold ∧ s'.started = s.started := by
  rw [State.stmt] at hs
  split at hs
  · cases hs
  all_goals first
    | (cases hs; exact ⟨rfl, rfl⟩)
    | (obtain ⟨-, ⟨⟩⟩ := Option.ite_none_right_eq_some.mp hs
       exact ⟨rfl, rfl⟩)

theorem step_frame {a : Act ι} (hs : step s a = some s') :
    s'.threshold = s.threshold ∧ s'.started = s.started + a.amount := by
  cases a with
  | run t =>
      obtain ⟨hT, hstarted⟩ := stmt_frame hs
      exact ⟨hT, by rw [hstarted, Act.amount, Int.add_zero]⟩
  | get t =>
      obtain ⟨-, ⟨⟩⟩ := Option.ite_none_right_eq_some.mp hs
      exact ⟨rfl, (Int.add_zero _).symm⟩
  | update t id amt =>
      obtain ⟨-, ⟨⟩⟩ := Option.ite_none_right_eq_some.mp hs
      exact ⟨rfl, rfl⟩

/-- The amounts of all updates that a schedule calls. -/
def total (acts : List (Act ι)) : Int := (acts.map Act.amount).sum

theorem exec_started {acts : List (Act ι)}
    (hrun : exec step s acts = some s') :
    s'.started = s.started + total acts := by
  induction acts generalizing s with
  | nil =>
      cases hrun
      exact (Int.add_zero _).symm
  | cons a acts ih =>
      obtain ⟨u, hu, hrun⟩ := exec_cons.mp hrun
      rw [ih hrun, (step_frame hu).2, total, total, List.map_cons,
        List.sum_cons, Int.add_assoc]

end LearningLinux.SloppyCounter
