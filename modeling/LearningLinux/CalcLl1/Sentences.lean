import Mathlib.Tactic.Ring
import LearningLinux.CalcLl1.Model

/-!
# The sentences of `calc_ll_1`

A sentence is a derivation in the LL(1) grammar, with a constructor for each
production. A tail is evaluated with the value to its left, so that its value
is left-associative. The program evaluates it from the right and without that
value; what it returns makes up for this (`Returns`).

A procedure has to know every token that may follow it, and `factor_tail` and
`term_tail` do not know the closing parenthesis. So no sentence with
parentheses is accepted. The grammar also lets several signs stand before a
number, of which `scanf` makes nothing.
-/

namespace LearningLinux.CalcLl1

open LearningLinux.Lib

/-! ## Sentences -/

inductive Nt where
  | expr
  | termTail
  | term
  | factorTail
  | factor

inductive AddOp where
  | plus
  | minus
deriving DecidableEq, Repr

inductive MulOp where
  | times
  | over
deriving DecidableEq, Repr

inductive Sentence : Nt → Type where
  | expr (t : Sentence .term) (tail : Sentence .termTail) : Sentence .expr
  | addOp (o : AddOp) (t : Sentence .term) (tail : Sentence .termTail) :
      Sentence .termTail
  | noTerm : Sentence .termTail
  | term (f : Sentence .factor) (tail : Sentence .factorTail) : Sentence .term
  | mulOp (o : MulOp) (f : Sentence .factor) (tail : Sentence .factorTail) :
      Sentence .factorTail
  | noFactor : Sentence .factorTail
  | digits (signs : List AddOp) (ds : List UInt8) (ne : ds ≠ [])
      (digit : ∀ d ∈ ds, isdigit d = true) : Sentence .factor
  | paren (e : Sentence .expr) : Sentence .factor

def AddOp.char : AddOp → UInt8
  | .plus => '+'.toUInt8
  | .minus => '-'.toUInt8

def MulOp.char : MulOp → UInt8
  | .times => '*'.toUInt8
  | .over => '/'.toUInt8

def Sentence.text : {nt : Nt} → Sentence nt → List UInt8
  | _, .expr t tail => t.text ++ tail.text
  | _, .addOp o t tail => o.char :: (t.text ++ tail.text)
  | _, .noTerm => []
  | _, .term f tail => f.text ++ tail.text
  | _, .mulOp o f tail => o.char :: (f.text ++ tail.text)
  | _, .noFactor => []
  | _, .digits signs ds _ _ => signs.map AddOp.char ++ ds
  | _, .paren e => '('.toUInt8 :: (e.text ++ [')'.toUInt8])

def AddOp.apply : AddOp → Value → Value → Value
  | .plus, a, b => add a b
  | .minus, a, b => add a (neg b)

def MulOp.apply : MulOp → Value → Value → Value
  | .times, a, b => mul a b
  | .over, a, b => div a b

def AddOp.signed : AddOp → Value → Value
  | .plus, a => a
  | .minus, a => neg a

/-- A tail has a value behind another value. -/
def Meaning : Nt → Type
  | .termTail => Value → Value
  | .factorTail => Value → Value
  | .expr => Value
  | .term => Value
  | .factor => Value

/-- From left to right; there is none if a divisor is zero. -/
def Sentence.value : {nt : Nt} → Sentence nt → Meaning nt
  | _, .expr t tail => (tail.value : Value → Value) t.value
  | _, .addOp o t tail => fun acc =>
      (tail.value : Value → Value) (o.apply acc t.value)
  | _, .noTerm => fun acc => acc
  | _, .term f tail => (tail.value : Value → Value) f.value
  | _, .mulOp o f tail => fun acc =>
      (tail.value : Value → Value) (o.apply acc f.value)
  | _, .noFactor => fun acc => acc
  | _, .digits signs ds _ _ =>
      signs.foldr AddOp.signed (some (decimal ds : ℚ))
  | _, .paren e => (e.value : Value)

/-- The value of a whole sentence. -/
def valueOf (e : Sentence .expr) : Value := e.value

/-- Without parentheses and with at most one sign before a number. -/
def Sentence.Plain : {nt : Nt} → Sentence nt → Prop
  | _, .expr t tail => t.Plain ∧ tail.Plain
  | _, .addOp _ t tail => t.Plain ∧ tail.Plain
  | _, .noTerm => True
  | _, .term f tail => f.Plain ∧ tail.Plain
  | _, .mulOp _ f tail => f.Plain ∧ tail.Plain
  | _, .noFactor => True
  | _, .digits signs _ _ _ => signs.length ≤ 1
  | _, .paren _ => False

/-- Followed by `END_TOKEN`, the sentence is accepted and evaluated. -/
def Evaluates (e : Sentence .expr) (v : ℚ) : Prop :=
  ∀ (out : Outside) (rest : List UInt8),
    Settles (result out (e.text ++ END_TOKEN :: rest)) (.ok (some v))

/-! ## Arithmetic -/

section Arithmetic

variable (a b c : Value)

theorem mul_unit : mul a (some 1) = a := by
  cases a <;> simp [mul]

theorem add_unit : add a (some 0) = a := by
  cases a <;> simp [add]

theorem mul_mul : mul a (mul b c) = mul (mul a b) c := by
  cases a <;> cases b <;> cases c <;> simp [mul, mul_assoc]

theorem add_add : add a (add b c) = add (add a b) c := by
  cases a <;> cases b <;> cases c <;> simp [add, add_assoc]

/-- `1 / factor()`, multiplied by what stands to the left. -/
theorem mul_div_one : mul a (div (some 1) b) = div a b := by
  cases a with
  | none => rfl
  | some x =>
      cases b with
      | none => rfl
      | some y =>
          by_cases hy : y = 0
          · simp [mul, div, hy]
          · simp [mul, div, hy, div_eq_mul_inv]

theorem mul_none : mul a none = none := by
  cases a <;> rfl

theorem add_none : add a none = none := by
  cases a <;> rfl

end Arithmetic

/-- What a procedure makes of an operand and of the tail behind it. -/
def MulOp.join : MulOp → Value → Value → Value
  | .times, l, r => mul l r
  | .over, l, r => mul (div (some 1) l) r

def AddOp.join : AddOp → Value → Value → Value
  | .plus, l, r => add l r
  | .minus, l, r => add (neg l) r

theorem MulOp.mul_join (o : MulOp) (acc l r : Value) :
    mul acc (o.join l r) = mul (o.apply acc l) r := by
  cases o with
  | times => exact mul_mul acc l r
  | «over» =>
      rw [MulOp.join, mul_mul, mul_div_one]
      rfl

theorem AddOp.add_join (o : AddOp) (acc l r : Value) :
    add acc (o.join l r) = add (o.apply acc l) r := by
  cases o with
  | plus => exact add_add acc l r
  | minus => exact add_add acc (neg l) r

/-- Nothing comes of an operand or of a tail without a value. -/
structure Strict (g : Value → Value → Value) : Prop where
  left : ∀ r, g none r = none
  right : ∀ l, g l none = none

theorem strict_mul : Strict mul := ⟨fun _ => rfl, mul_none⟩

theorem strict_add : Strict add := ⟨fun _ => rfl, add_none⟩

theorem MulOp.strict_join (o : MulOp) : Strict o.join := by
  cases o with
  | times => exact strict_mul
  | «over» => exact ⟨fun _ => rfl, fun l => mul_none _⟩

theorem AddOp.strict_join (o : AddOp) : Strict o.join := by
  cases o with
  | plus => exact strict_add
  | minus => exact ⟨fun _ => rfl, fun l => add_none _⟩

/-! ## The procedures, token by token -/

variable {out : Outside} {w : List UInt8} {f t x y : Calc} {fuel : Nat}
  {s s' s'' : Lookahead} {a b : Value} {g : Value → Value → Value}

/-- This may follow a term. -/
def EndsTerm (c : UInt8) : Prop :=
  c = '+'.toUInt8 ∨ c = '-'.toUInt8 ∨ c = END_TOKEN

instance (c : UInt8) : Decidable (EndsTerm c) :=
  inferInstanceAs (Decidable (_ ∨ _))

/-- Behind this no number goes on. -/
def Closed (c : UInt8) : Prop := isdigit c = false ∧ isSpelling c = false

theorem EndsTerm.closed {c : UInt8} (h : EndsTerm c) : Closed c := by
  rcases h with rfl | rfl | rfl <;> exact ⟨by decide, by decide⟩

theorem MulOp.closed (o : MulOp) : Closed o.char := by
  cases o <;> exact ⟨by decide, by decide⟩

theorem AddOp.endsTerm (o : AddOp) : EndsTerm o.char := by
  cases o
  · exact Or.inl rfl
  · exact Or.inr (Or.inl rfl)

theorem factorTail_mulOp (o : MulOp) :
    factorTail f (fuel + 1) (getchar (o.char :: w)) = (do
      let l ← f
      let r ← factorTail f fuel
      pure (o.join l r) : Calc) (getchar w) := by
  cases o with
  | times =>
      show (matchToken '*'.toUInt8 >>= fun _ => do
        let l ← f
        let r ← factorTail f fuel
        pure (mul l r) : Calc) (getchar ('*'.toUInt8 :: w)) = _
      exact bind_run (expect_run _ _)
  | «over» =>
      show (matchToken '/'.toUInt8 >>= fun _ => do
        let l ← f
        let r ← factorTail f fuel
        pure (mul (div (some 1) l) r) : Calc) (getchar ('/'.toUInt8 :: w)) = _
      exact bind_run (expect_run _ _)

theorem factorTail_ends (h : EndsTerm (peek w)) :
    factorTail f (fuel + 1) (getchar w) = .ok (some 1, getchar w) := by
  have hne : peek w ≠ '*'.toUInt8 ∧ peek w ≠ '/'.toUInt8 := by
    rcases h with h | h | h <;> rw [h] <;> decide
  show (if peek w = _ then _ else if peek w = _ then _ else
    if EndsTerm (peek w) then _ else _ : Calc) _ = _
  rw [if_neg hne.1, if_neg hne.2, if_pos h]
  rfl

theorem termTail_addOp (o : AddOp) :
    termTail t (fuel + 1) (getchar (o.char :: w)) = (do
      let l ← t
      let r ← termTail t fuel
      pure (o.join l r) : Calc) (getchar w) := by
  cases o with
  | plus =>
      show (matchToken '+'.toUInt8 >>= fun _ => do
        let l ← t
        let r ← termTail t fuel
        pure (add l r) : Calc) (getchar ('+'.toUInt8 :: w)) = _
      exact bind_run (expect_run _ _)
  | minus =>
      show (matchToken '-'.toUInt8 >>= fun _ => do
        let l ← t
        let r ← termTail t fuel
        pure (add (neg l) r) : Calc) (getchar ('-'.toUInt8 :: w)) = _
      exact bind_run (expect_run _ _)

theorem termTail_ends (h : peek w = END_TOKEN) :
    termTail t (fuel + 1) (getchar w) = .ok (some 0, getchar w) := by
  show (if peek w = _ then _ else if peek w = _ then _ else
    if peek w = _ then _ else _ : Calc) _ = _
  rw [h, if_neg (by decide), if_neg (by decide), if_pos rfl]
  rfl

theorem factor_paren : factor out (fuel + 1) (getchar ('('.toUInt8 :: w)) = (do
    let value ← expr out fuel
    matchToken ')'.toUInt8
    pure value : Calc) (getchar w) := by
  show (matchToken '('.toUInt8 >>= fun _ => do
    let value ← expr out fuel
    matchToken ')'.toUInt8
    pure value : Calc) (getchar ('('.toUInt8 :: w)) = _
  exact bind_run (expect_run _ _)

theorem factor_number (h : (isdigit (peek w) || isSign (peek w)) = true) :
    factor out (fuel + 1) (getchar w) = number out (getchar w) := by
  have hne : peek w ≠ '('.toUInt8 := by
    intro heq
    rw [heq] at h
    exact absurd h (by decide)
  show (if peek w = _ then _ else
    if (isdigit (peek w) || isSign (peek w)) = true then _ else _ : Calc) _ = _
  rw [if_neg hne, if_pos h]

/-- Two steps and what is made of them. -/
theorem join_run (hx : x s = .ok (a, s')) (hy : y s' = .ok (b, s'')) :
    (do
      let l ← x
      let r ← y
      pure (g l r) : Calc) s = .ok (g a b, s'') :=
  (bind_run hx).trans (bind_run hy)

end LearningLinux.CalcLl1
