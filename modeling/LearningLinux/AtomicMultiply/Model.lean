import Mathlib.Algebra.BigOperators.Group.List.Basic
import Mathlib.Logic.Function.Basic
import LearningLinux.Lib.Threads

/-!
# `fetch_mult` and `operator*=`

The two functions of `fetch_mult/main.cpp` that multiply an atomic variable:
a load, and then exchanges until one succeeds. The scheduler runs one atomic
operation of one thread at a time, and nothing is said about the threads but
that they can be told apart. The type of the variable is any with a
multiplication; for the integer types it is that of `BitVec w`.

Calls are numbered as they begin. `history` records where each of them begins
and returns, and `log` the exchanges that succeeded.
-/

namespace LearningLinux.AtomicMultiply

open LearningLinux.Lib

/-- The two functions. Their loops are the same; what they return is not. -/
inductive Op where
  | fetchMult
  | mulAssign
deriving DecidableEq, Repr

/-- The value returned, with `oldValue` that of the exchange that succeeded.
`operator*=` returns a reference to the variable. -/
def Op.result {T : Type*} (oldValue : T) : Op → Option T
  | .fetchMult => some oldValue
  | .mulAssign => none

/-- What a thread does next: `shared.load()`, `compare_exchange_strong`, or
return. -/
inductive Pc (T : Type*) where
  | load
  | exchange (oldValue : T)
  | ret (oldValue : T)
deriving DecidableEq, Repr

/-- A call under way. -/
structure Running (T : Type*) where
  id : Nat
  op : Op
  mult : T
  pc : Pc T

inductive Event (T : Type*) where
  | call (id : Nat) (op : Op) (mult : T)
  | ret (id : Nat) (value : Option T)
deriving DecidableEq, Repr

/-- A successful exchange: by which call, and from which value. -/
structure Exchange (T : Type*) where
  id : Nat
  mult : T
  before : T
deriving DecidableEq, Repr

structure State (ι T : Type*) where
  shared : T
  thread : ι → Option (Running T)
  calls : Nat
  history : List (Event T)
  log : List (Exchange T)

variable {ι T : Type*}

def State.init (v : T) : State ι T := ⟨v, fun _ => none, 0, [], []⟩

/-- A thread calls one of the functions, or makes a step of its call. -/
inductive Act (ι T : Type*) where
  | call (t : ι) (op : Op) (mult : T)
  | move (t : ι)

section Step

variable [DecidableEq ι] [DecidableEq T] [Mul T]

def State.call (s : State ι T) (t : ι) (op : Op) (mult : T) : State ι T :=
  { s with
    thread := Function.update s.thread t (some ⟨s.calls, op, mult, .load⟩)
    calls := s.calls + 1
    history := s.history ++ [.call s.calls op mult] }

/-- The thread has `oldValue`, and goes on to an exchange. -/
def State.expect (s : State ι T) (t : ι) (r : Running T) (oldValue : T) :
    State ι T :=
  { s with
    thread := Function.update s.thread t
      (some ⟨r.id, r.op, r.mult, .exchange oldValue⟩) }

/-- The exchange succeeds. -/
def State.exchange (s : State ι T) (t : ι) (r : Running T) (oldValue : T) :
    State ι T :=
  { s with
    shared := oldValue * r.mult
    thread := Function.update s.thread t
      (some ⟨r.id, r.op, r.mult, .ret oldValue⟩)
    log := s.log ++ [⟨r.id, r.mult, oldValue⟩] }

def State.ret (s : State ι T) (t : ι) (r : Running T) (oldValue : T) :
    State ι T :=
  { s with
    thread := Function.update s.thread t none
    history := s.history ++ [.ret r.id (r.op.result oldValue)] }

def State.move (s : State ι T) (t : ι) : Option (State ι T) :=
  match s.thread t with
  | none => none
  | some r =>
      match r.pc with
      | .load => some (s.expect t r s.shared)
      | .exchange oldValue =>
          if s.shared = oldValue then some (s.exchange t r oldValue)
          -- `compare_exchange_strong` leaves the present value in `oldValue`
          else some (s.expect t r s.shared)
      | .ret oldValue => some (s.ret t r oldValue)

def step (s : State ι T) : Act ι T → Option (State ι T)
  | .call t op mult =>
      if (s.thread t).isNone then some (s.call t op mult) else none
  | .move t => s.move t

/-- What a step can do. -/
inductive Steps (s : State ι T) : State ι T → Prop
  | call (t : ι) (op : Op) (mult : T) (hidle : s.thread t = none) :
      Steps s (s.call t op mult)
  | expect (t : ι) (r : Running T) (hr : s.thread t = some r)
      (hpc : ∀ oldValue, r.pc ≠ .ret oldValue) :
      Steps s (s.expect t r s.shared)
  | exchange (t : ι) (r : Running T) (hr : s.thread t = some r)
      (hpc : r.pc = .exchange s.shared) : Steps s (s.exchange t r s.shared)
  | ret (t : ι) (r : Running T) (oldValue : T) (hr : s.thread t = some r)
      (hpc : r.pc = .ret oldValue) : Steps s (s.ret t r oldValue)

theorem step_steps {s s' : State ι T} {a : Act ι T} (h : step s a = some s') :
    Steps s s' := by
  cases a with
  | call t op mult =>
      obtain ⟨hidle, ⟨⟩⟩ := Option.ite_none_right_eq_some.mp h
      exact Steps.call t op mult (Option.isNone_iff_eq_none.mp hidle)
  | move t =>
      rw [step, State.move] at h
      cases hr : s.thread t with
      | none =>
          rw [hr] at h
          cases h
      | some r =>
          simp only [hr] at h
          cases hpc : r.pc with
          | load =>
              simp only [hpc] at h
              cases h
              exact Steps.expect t r hr (by simp [hpc])
          | exchange oldValue =>
              simp only [hpc] at h
              split at h
              · next heq =>
                  cases h
                  rw [← heq] at hpc ⊢
                  exact Steps.exchange t r hr hpc
              · cases h
                exact Steps.expect t r hr (by simp [hpc])
          | ret oldValue =>
              simp only [hpc] at h
              cases h
              exact Steps.ret t r oldValue hr hpc

end Step

/-! ## The order of the exchanges -/

/-- The calls of a history, each with its factor. -/
def callOf : Event T → Option (Nat × T)
  | .call id _ mult => some (id, mult)
  | .ret _ _ => none

def callsOf (history : List (Event T)) : List (Nat × T) :=
  history.filterMap callOf

/-- Call `a` has returned before call `b` begins. -/
def Precedes (history : List (Event T)) (a b : Nat) : Prop :=
  ∃ value op mult,
    List.Sublist [Event.ret a value, Event.call b op mult] history

/-- Each exchange starts from the value the one before it left, beginning with
`v` and ending with `w`. -/
def Chained [Mul T] : T → List (Exchange T) → T → Prop
  | v, [], w => w = v
  | v, x :: log, w => x.before = v ∧ Chained (v * x.mult) log w

/-- The exchanges, in the order in which they were made, are an order of the
calls that explains the history. -/
structure Linearised [Monoid T] (v : T) (s : State ι T) : Prop where
  /-- No call takes effect twice, and none that was not made. -/
  once : (s.log.map (·.id)).Nodup
  made : ∀ x ∈ s.log, ∃ op, Event.call x.id op x.mult ∈ s.history
  chained : Chained v s.log s.shared
  /-- A call that returned has taken effect, and returns what is due. -/
  returned : ∀ id value, Event.ret id value ∈ s.history →
    ∃ x ∈ s.log, x.id = id ∧ ∃ op, Event.call id op x.mult ∈ s.history ∧
      value = op.result x.before
  realTime : ∀ a b, Precedes s.history a b → b ∈ s.log.map (·.id) →
    List.Sublist [a, b] (s.log.map (·.id))
  /-- When nothing is under way, no factor is missing. -/
  product : (∀ t, s.thread t = none) →
    s.shared = v * ((callsOf s.history).map (·.2)).prod

end LearningLinux.AtomicMultiply
