import Mathlib.Algebra.Field.Rat
import LearningLinux.Lib.Lookahead

/-!
# `calc_ll_1`, a calculator without loops

The procedures of the LL(1) grammar. Each tail returns what its caller has to
multiply by, or to add: `1` and `0` where there is nothing more.

The two operands of a sum or a product both read on, and C does not say which
of them comes first. Here it is the left one everywhere, as the grammar means
it; a compiler may call `term_tail` before `term` in `- term() + term_tail()`.

A `double` is a rational number, or none: infinite, or not a number. The value
of an uninitialised `value` is left open here too, and so is what `scanf` makes
of a number with a point or a letter in it.
-/

namespace LearningLinux.CalcLl1

open LearningLinux.Lib

/-! ## `double` -/

abbrev Value := Option ℚ

def mul (a b : Value) : Value := a.bind fun x => b.map fun y => x * y

def add (a b : Value) : Value := a.bind fun x => b.map fun y => x + y

def neg (a : Value) : Value := a.map fun x => -x

def div (a b : Value) : Value :=
  a.bind fun x => b.bind fun y => if y = 0 then none else some (x / y)

/-! ## The program -/

def END_TOKEN : UInt8 := 10

/-- What goes to `stderr` before `exit(1)`. -/
inductive Message where
  | error (msg : String) (token : UInt8)
  | mismatch (expected token : UInt8)
deriving DecidableEq, Repr

abbrev Calc := Reader Message Value

def error (msg : String) : Calc := fun s =>
  .error (.exit (.error msg s.token))

def matchToken (expected : UInt8) : Reader Message Unit :=
  expect .mismatch expected

/-- A number may go on with this behind its digits, or behind its sign. -/
def isSpelling (c : UInt8) : Bool :=
  c = '.'.toUInt8 || 'a'.toUInt8 ≤ c && c ≤ 'z'.toUInt8 ||
    'A'.toUInt8 ≤ c && c ≤ 'Z'.toUInt8

/-- What is outside the program: the uninitialised `value` at a place in the
text, and `scanf` for the other numbers. -/
structure Outside where
  junk : List UInt8 → Value
  other : Value → List UInt8 → Value × List UInt8

/-- `scanf("%lf", &value)`: without a digit it leaves `value` as it is. -/
def scanDouble (out : Outside) (value : Value) (stdin : List UInt8) :
    Value × List UInt8 :=
  let s := scanDecimal stdin
  if isSpelling (peek s.rest) then out.other value stdin
  else if s.digits = [] then (value, s.rest)
  else (some s.value, s.rest)

/-- The case of a digit or a sign in `factor`. -/
def number (out : Outside) : Calc := fun s =>
  let r := scanDouble out (out.junk s.stdin) (s.token :: s.stdin)
  .ok (r.1, getchar r.2)

def factorTail (factor : Calc) : Nat → Calc
  | 0 => stop .outOfFuel
  | fuel + 1 => do
      let token := (← get).token
      if token = '*'.toUInt8 then do
        matchToken '*'.toUInt8
        let l ← factor
        let r ← factorTail factor fuel
        pure (mul l r)
      else if token = '/'.toUInt8 then do
        matchToken '/'.toUInt8
        let l ← factor
        let r ← factorTail factor fuel
        pure (mul (div (some 1) l) r)
      else if token = '+'.toUInt8 ∨ token = '-'.toUInt8 ∨
          token = END_TOKEN then pure (some 1)
      else error "bad factor_tail"

def term (factor : Calc) (fuel : Nat) : Calc := do
  let l ← factor
  let r ← factorTail factor fuel
  pure (mul l r)

def termTail (term : Calc) : Nat → Calc
  | 0 => stop .outOfFuel
  | fuel + 1 => do
      let token := (← get).token
      if token = '+'.toUInt8 then do
        matchToken '+'.toUInt8
        let l ← term
        let r ← termTail term fuel
        pure (add l r)
      else if token = '-'.toUInt8 then do
        matchToken '-'.toUInt8
        let l ← term
        let r ← termTail term fuel
        pure (add (neg l) r)
      else if token = END_TOKEN then pure (some 0)
      else error "bad term_tail"

def exprWith (factor : Calc) (fuel : Nat) : Calc := do
  let l ← term factor fuel
  let r ← termTail (term factor fuel) fuel
  pure (add l r)

def factor (out : Outside) : Nat → Calc
  | 0 => stop .outOfFuel
  | fuel + 1 => do
      let token := (← get).token
      if token = '('.toUInt8 then do
        matchToken '('.toUInt8
        let value ← exprWith (factor out fuel) fuel
        matchToken ')'.toUInt8
        pure value
      else if isdigit token || isSign token then number out
      else error "bad factor"

def expr (out : Outside) (fuel : Nat) : Calc :=
  exprWith (factor out fuel) fuel

/-- What `main` gets from `expr`. -/
def result (out : Outside) (input : List UInt8) (fuel : Nat) :
    Except (Stop Message) Value :=
  (expr out fuel (getchar input)).map Prod.fst

end LearningLinux.CalcLl1
