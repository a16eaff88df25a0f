import LearningLinux.FrontEnd.ThreeAddress
import LearningLinux.FrontEnd.Labels
import LearningLinux.Lib.Machine

/-!
# What a tree means and what its code does

Both sides share an interpretation of the constants and operators, which may
be undefined on some values, and a memory with a value for every variable and
array element. An array element is named by the value of its index.

`Exec` is the structured meaning of a tree: a statement ends normally or by
`break` or `continue`, which the innermost loop around catches. Neither of
them looks at the node its statement points to.

`mstep` runs the printed code, on three-address instructions only: an operand
that is no identifier, constant or temporary has no value, and the machine
stops there. It also stops at the end of the code, where `halted` holds.
-/

namespace LearningLinux.FrontEnd

open Lib

structure Interp (V : Type) where
  num : Int → V
  real : Real → V
  tt : V
  ff : V
  truth : V → Bool
  truth_tt : truth tt = true
  truth_ff : truth ff = false
  arith : ArithOp → V → V → Option V
  minus : V → Option V
  rel : RelOp → V → V → Option Bool

structure Mem (V : Type) where
  vars : Id → V
  elems : Id → V → V

variable {V : Type}

def Mem.setVar (m : Mem V) (i : Id) (v : V) : Mem V :=
  { m with vars := fun j => if j = i then v else m.vars j }

/-- An element is looked up by its index as a whole, so this asks for nothing
of the values but equality. -/
def Mem.setElem [DecidableEq V] (m : Mem V) (a : Id) (w v : V) : Mem V :=
  { m with
    elems := fun b u => if b = a ∧ u = w then v else m.elems b u }

def Interp.const (I : Interp V) : Const → V
  | .num n => I.num n
  | .real r => I.real r
  | .true => I.tt
  | .false => I.ff

def Interp.ofBool (I : Interp V) (b : Bool) : V := if b then I.tt else I.ff

theorem Interp.truth_ofBool (I : Interp V) (b : Bool) :
    I.truth (I.ofBool b) = b := by
  cases b with
  | true => exact I.truth_tt
  | false => exact I.truth_ff

/-! ## Trees -/

/-- The value of an expression; `&&` and `||` stop at the operand that
decides them. -/
def Expr.eval (I : Interp V) (m : Mem V) : Expr → Option V
  | .id i => some (m.vars i)
  | .temp _ _ => none
  | .const c => some (I.const c)
  | .arith op x y => do I.arith op (← x.eval I m) (← y.eval I m)
  | .unary x => do I.minus (← x.eval I m)
  | .access a i _ => do some (m.elems a (← i.eval I m))
  | .or x y => do
      if I.truth (← x.eval I m) then some I.tt
      else some (I.ofBool (I.truth (← y.eval I m)))
  | .and x y => do
      if I.truth (← x.eval I m) then
        some (I.ofBool (I.truth (← y.eval I m)))
      else some I.ff
  | .not x => do some (I.ofBool (!I.truth (← x.eval I m)))
  | .rel op x y => do
      some (I.ofBool (← I.rel op (← x.eval I m) (← y.eval I m)))

/-- The truth of a condition. -/
def Expr.holds (I : Interp V) (m : Mem V) (x : Expr) : Option Bool :=
  (x.eval I m).map I.truth

inductive Outcome where
  | normal
  | broke
  | continued
  deriving DecidableEq, Repr

inductive Exec [DecidableEq V] (I : Interp V) :
    Stmt → Mem V → Outcome → Mem V → Prop where
  | null {m : Mem V} : Exec I .null m .normal m
  | set {i : Id} {x : Expr} {m : Mem V} {v : V} (hx : x.eval I m = some v) :
      Exec I (.set i x) m .normal (m.setVar i v)
  | setElem {a : Id} {i x : Expr} {m : Mem V} {w v : V}
      (hi : i.eval I m = some w) (hx : x.eval I m = some v) :
      Exec I (.setElem a i x) m .normal (m.setElem a w v)
  | ifTrue {x : Expr} {s : Stmt} {m m' : Mem V} {o : Outcome}
      (hx : x.holds I m = some true) (hs : Exec I s m o m') :
      Exec I (.if x s) m o m'
  | ifFalse {x : Expr} {s : Stmt} {m : Mem V}
      (hx : x.holds I m = some false) : Exec I (.if x s) m .normal m
  | elseTrue {x : Expr} {s1 s2 : Stmt} {m m' : Mem V} {o : Outcome}
      (hx : x.holds I m = some true) (hs : Exec I s1 m o m') :
      Exec I (.else x s1 s2) m o m'
  | elseFalse {x : Expr} {s1 s2 : Stmt} {m m' : Mem V} {o : Outcome}
      (hx : x.holds I m = some false) (hs : Exec I s2 m o m') :
      Exec I (.else x s1 s2) m o m'
  | whileDone {n : Nat} {x : Expr} {s : Stmt} {m : Mem V}
      (hx : x.holds I m = some false) : Exec I (.while n x s) m .normal m
  | whileBreak {n : Nat} {x : Expr} {s : Stmt} {m m' : Mem V}
      (hx : x.holds I m = some true) (hs : Exec I s m .broke m') :
      Exec I (.while n x s) m .normal m'
  | whileLoop {n : Nat} {x : Expr} {s : Stmt} {m m₁ m₂ : Mem V}
      {o : Outcome} (hx : x.holds I m = some true) (hs : Exec I s m o m₁)
      (ho : o ≠ .broke) (hw : Exec I (.while n x s) m₁ .normal m₂) :
      Exec I (.while n x s) m .normal m₂
  | doBreak {n : Nat} {x : Expr} {s : Stmt} {m m' : Mem V}
      (hs : Exec I s m .broke m') : Exec I (.do n s x) m .normal m'
  | doDone {n : Nat} {x : Expr} {s : Stmt} {m m₁ : Mem V} {o : Outcome}
      (hs : Exec I s m o m₁) (ho : o ≠ .broke)
      (hx : x.holds I m₁ = some false) : Exec I (.do n s x) m .normal m₁
  | doLoop {n : Nat} {x : Expr} {s : Stmt} {m m₁ m₂ : Mem V} {o : Outcome}
      (hs : Exec I s m o m₁) (ho : o ≠ .broke)
      (hx : x.holds I m₁ = some true)
      (hw : Exec I (.do n s x) m₁ .normal m₂) :
      Exec I (.do n s x) m .normal m₂
  | break {n : Nat} {m : Mem V} : Exec I (.break n) m .broke m
  | continue {n : Nat} {m : Mem V} : Exec I (.continue n) m .continued m
  | seqNext {s1 s2 : Stmt} {m m₁ m₂ : Mem V} {o : Outcome}
      (hs1 : Exec I s1 m .normal m₁) (hs2 : Exec I s2 m₁ o m₂) :
      Exec I (.seq s1 s2) m o m₂
  | seqExit {s1 s2 : Stmt} {m m₁ : Mem V} {o : Outcome}
      (hs1 : Exec I s1 m o m₁) (ho : o ≠ .normal) :
      Exec I (.seq s1 s2) m o m₁

/-! ## Code -/

structure MState (V : Type) where
  pc : Nat
  mem : Mem V
  temps : Nat → V

def Expr.operandValue (I : Interp V) (m : Mem V) (temps : Nat → V) :
    Expr → Option V
  | .id i => some (m.vars i)
  | .const c => some (I.const c)
  | .temp n _ => some (temps n)
  | _ => none

/-- The right-hand side of an assignment. -/
def Expr.rhsValue (I : Interp V) (m : Mem V) (temps : Nat → V) :
    Expr → Option V
  | .arith op x y => do
      I.arith op (← x.operandValue I m temps) (← y.operandValue I m temps)
  | .unary x => do I.minus (← x.operandValue I m temps)
  | .access a i _ => do some (m.elems a (← i.operandValue I m temps))
  | x => x.operandValue I m temps

/-- The test of a conditional jump. -/
def Expr.testValue (I : Interp V) (m : Mem V) (temps : Nat → V) :
    Expr → Option Bool
  | .rel op x y => do
      I.rel op (← x.operandValue I m temps) (← y.operandValue I m temps)
  | x => (x.operandValue I m temps).map I.truth

/-- Where a label stands. -/
def labelPos (code : List Item) (l : Nat) : Option Nat :=
  code.idxOf? (.label l)

def MState.next (s : MState V) : MState V := { s with pc := s.pc + 1 }

def MState.jump (code : List Item) (s : MState V) (l : Nat) :
    Option (MState V) :=
  (labelPos code l).map fun p => { s with pc := p }

def execInstr [DecidableEq V] (I : Interp V) (code : List Item)
    (s : MState V) : Instr → Option (MState V)
  | .set i e => (e.rhsValue I s.mem s.temps).map fun v =>
      { s.next with mem := s.mem.setVar i v }
  | .setTemp n e => (e.rhsValue I s.mem s.temps).map fun v =>
      { s.next with temps := fun j => if j = n then v else s.temps j }
  | .store a i e => do
      let w ← i.operandValue I s.mem s.temps
      let v ← e.operandValue I s.mem s.temps
      some { s.next with mem := s.mem.setElem a w v }
  | .goto l => s.jump code l
  | .ifTrue x l => do
      if ← x.testValue I s.mem s.temps then s.jump code l else some s.next
  | .ifFalse x l => do
      if ← x.testValue I s.mem s.temps then some s.next else s.jump code l

def mstep [DecidableEq V] (I : Interp V) (code : List Item) (s : MState V) :
    Option (MState V) :=
  match code[s.pc]? with
  | none => none
  | some (.label _) => some s.next
  | some (.instr i) => execInstr I code s i

/-- The end of the code. -/
def halted (code : List Item) (s : MState V) : Prop := s.pc = code.length

theorem mstep_halted [DecidableEq V] {I : Interp V} {code : List Item}
    {s : MState V} (h : halted code s) : mstep I code s = none := by
  rw [mstep, List.getElem?_eq_none (Nat.le_of_eq h.symm)]

end LearningLinux.FrontEnd
