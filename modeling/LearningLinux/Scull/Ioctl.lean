import Mathlib.Algebra.Group.Int.Defs
import Mathlib.Algebra.Group.Nat.Defs
import Mathlib.Data.Int.Init

/-!
# `scull_ioctl`

The parameters of the module and the `ioctl` that all its devices share. The
commands for `scull_quantum` and `scull_qset` are the same six, and the two of
the pipe only tell and query. None of them touches a device: what they set is
read at the next trim or open.

An exchange of `scull_qset` answers with `put_user` where that of
`scull_quantum` has `__put_user`. That asks `access_ok` a second time, and
nothing comes of it (`paramIoctl_putUser`).

The commands are the ones of `scull.h`, so the tests of the type and of the
number of `cmd` have nothing to refuse. `access_ok` is asked about the commands
that have a direction, those that go through a pointer.
-/

namespace LearningLinux.Scull

/-- The `int`s that can be set at load time. -/
structure Params where
  scull_quantum : Int
  scull_qset : Int
  scull_p_buffer : Int
deriving DecidableEq, Repr

def SCULL_QUANTUM : Int := 4000
def SCULL_QSET : Int := 1000
def SCULL_P_BUFFER : Int := 4000

/-- What is done to a parameter: set, tell, get, query, exchange, shift. -/
inductive Verb where
  | S
  | T
  | G
  | Q
  | X
  | H
deriving DecidableEq, Repr

inductive Cmd where
  | reset
  | quantum (v : Verb)
  | qset (v : Verb)
  | pTSize
  | pQSize
deriving DecidableEq, Repr

/-- The argument of an `ioctl` and what the kernel finds for it: whether the
caller is capable of administration, whether `arg` passes `access_ok`, the
`int` that is stored there, if it can be read, and whether it can be written. -/
structure IoctlCall where
  arg : Nat
  capable : Bool
  accessOk : Bool
  user : Option Int
  putOk : Bool

/-- How an `ioctl` ends: with a value, 0 if it has nothing to say. -/
inductive Answer where
  | value (v : Int)
  | eperm
  | efault
deriving DecidableEq, Repr

/-- A value converted to `int`. -/
def intOf (n : Int) : Int := n.bmod (2 ^ 32)

theorem intOf_of_lt {n : Int} (hlo : -2 ^ 31 ≤ n) (hlt : n < 2 ^ 31) :
    intOf n = n := by
  rw [intOf, Int.bmod_def]
  split <;> omega

theorem intOf_natCast {n : Nat} (h : n < 2 ^ 31) : intOf n = n :=
  intOf_of_lt (by omega) (by omega)

/-- `__put_user`, which leaves the test of the pointer to its caller. -/
def putUserUnchecked (c : IoctlCall) : Answer :=
  if c.putOk then .value 0 else .efault

def putUser (c : IoctlCall) : Answer :=
  if ¬ c.accessOk then .efault else putUserUnchecked c

/-- The six commands for a parameter: the answer and the new value. A
`__get_user` that fails stores 0; `put` is what an exchange answers with. -/
def paramIoctl (put : IoctlCall → Answer) (c : IoctlCall) (param : Int) :
    Verb → Answer × Int
  | .S =>
      if ¬ c.capable then (.eperm, param)
      else match c.user with
        | some v => (.value 0, intOf v)
        | none => (.efault, 0)
  | .T => if ¬ c.capable then (.eperm, param) else (.value 0, intOf c.arg)
  | .G => (putUserUnchecked c, param)
  | .Q => (.value param, param)
  | .X =>
      if ¬ c.capable then (.eperm, param)
      else match c.user with
        | some v => (put c, intOf v)
        | none => (.efault, 0)
  | .H => if ¬ c.capable then (.eperm, param) else (.value param, intOf c.arg)

/-- The command goes through a pointer. -/
def Verb.direction : Verb → Bool
  | .S => true
  | .T => false
  | .G => true
  | .Q => false
  | .X => true
  | .H => false

def Cmd.direction : Cmd → Bool
  | .quantum v => v.direction
  | .qset v => v.direction
  | _ => false

def scullIoctl (p : Params) (cmd : Cmd) (c : IoctlCall) : Answer × Params :=
  if cmd.direction ∧ ¬ c.accessOk then (.efault, p)
  else match cmd with
    | .reset =>
        (.value 0, { p with
          scull_quantum := SCULL_QUANTUM
          scull_qset := SCULL_QSET })
    | .quantum v =>
        let r := paramIoctl putUserUnchecked c p.scull_quantum v
        (r.1, { p with
          scull_quantum := r.2 })
    | .qset v =>
        let r := paramIoctl putUser c p.scull_qset v
        (r.1, { p with
          scull_qset := r.2 })
    | .pTSize =>
        (.value 0, { p with
          scull_p_buffer := intOf c.arg })
    | .pQSize => (.value p.scull_p_buffer, p)

/-- The pointer of an exchange has passed `access_ok` before the switch. -/
theorem paramIoctl_putUser {c : IoctlCall} {v : Verb}
    (h : v.direction → c.accessOk) (param : Int) :
    paramIoctl putUser c param v = paramIoctl putUserUnchecked c param v := by
  cases v with
  | X =>
      have hput : putUser c = putUserUnchecked c := if_neg (not_not_intro (h rfl))
      rw [paramIoctl, paramIoctl, hput]
  | _ => rfl

end LearningLinux.Scull
