import LearningLinux.Lib.Lookahead
import Mathlib.Algebra.Group.Int.Defs

/-!
# `calc_ll`, a calculator with loops

One function for each of `factor`, `term` and `expr`; the value is computed
while the text is read. `term` and `expr` have the same loop, each with its two
operators.

What is read of an uninitialised `value` is left open: `junk` gives it for
every place in the text. Arithmetic that leaves `int` is undefined behaviour,
and so is a number that does not fit.
-/

namespace LearningLinux.CalcLl

open LearningLinux.Lib

/-- What goes to `stderr` before `exit(1)`. -/
inductive Message where
  | error (msg : String)
  | mismatch (expected token : UInt8)
deriving DecidableEq, Repr

abbrev Calc := Reader Message

/-- `calcint_t` holds the value. -/
def IsInt (v : Int) : Prop := -2 ^ 31 ≤ v ∧ v < 2 ^ 31

instance (v : Int) : Decidable (IsInt v) := inferInstanceAs (Decidable (_ ∧ _))

def checked (v : Int) : Except (Stop Message) Int :=
  if IsInt v then .ok v else .error .undefined

inductive Op where
  | times
  | over
  | plus
  | minus
deriving DecidableEq, Repr

def Op.char : Op → UInt8
  | .times => '*'.toUInt8
  | .over => '/'.toUInt8
  | .plus => '+'.toUInt8
  | .minus => '-'.toUInt8

/-- `value op= operand` -/
def Op.apply : Op → Int → Int → Except (Stop Message) Int
  | .times, value, operand => checked (value * operand)
  | .over, value, operand =>
      if operand = 0 then .error .undefined else checked (value.tdiv operand)
  | .plus, value, operand => checked (value + operand)
  | .minus, value, operand => checked (value - operand)

def error (msg : String) : Calc Int := stop (.exit (.error msg))

def matchToken (expected : UInt8) : Calc Unit := expect .mismatch expected

/-- `scanf("%d", &value)`: without a digit it leaves `value` as it is. -/
def scanInt (value : Int) (stdin : List UInt8) :
    Except (Stop Message) (Int × List UInt8) :=
  let s := scanDecimal stdin
  if s.digits = [] then .ok (value, s.rest)
  else (checked s.value).map fun v => (v, s.rest)

/-- The case of a digit or a sign in `factor`. -/
def number (junk : List UInt8 → Int32) : Calc Int := fun s =>
  (scanInt (junk s.stdin).toInt (s.token :: s.stdin)).map fun r =>
    (r.1, getchar r.2)

/-- The loop of `term` and of `expr`, in which the operand is read anew. -/
def opLoop (first second : Op) (bad : String) (operand : Calc Int) :
    Nat → Int → Calc Int
  | 0, _ => stop .outOfFuel
  | fuel + 1, value => do
      let token := (← get).token
      if token = first.char ∨ token = second.char then
        if token = first.char then do
          matchToken first.char
          let right ← operand
          let value ← (first.apply value right : Except _ _)
          opLoop first second bad operand fuel value
        else if token = second.char then do
          matchToken second.char
          let right ← operand
          let value ← (second.apply value right : Except _ _)
          opLoop first second bad operand fuel value
        else error bad
      else pure value

def term (factor : Calc Int) (fuel : Nat) : Calc Int := do
  let value ← factor
  opLoop .times .over "bad term" factor fuel value

def exprWith (factor : Calc Int) (fuel : Nat) : Calc Int := do
  let value ← term factor fuel
  opLoop .plus .minus "bad expr" (term factor fuel) fuel value

def factor (junk : List UInt8 → Int32) : Nat → Calc Int
  | 0 => stop .outOfFuel
  | fuel + 1 => do
      let token := (← get).token
      if token = '('.toUInt8 then do
        matchToken '('.toUInt8
        let value ← exprWith (factor junk fuel) fuel
        matchToken ')'.toUInt8
        pure value
      else if isdigit token || isSign token then number junk
      else error "bad factor"

def expr (junk : List UInt8 → Int32) (fuel : Nat) : Calc Int :=
  exprWith (factor junk fuel) fuel

/-- What `main` gets from `expr`. -/
def result (junk : List UInt8 → Int32) (input : List UInt8) (fuel : Nat) :
    Except (Stop Message) Int :=
  (expr junk fuel (getchar input)).map Prod.fst

end LearningLinux.CalcLl
