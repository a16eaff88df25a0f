import LearningLinux.FrontEnd.Inter

/-!
# Code generation

The methods `gen`, `reduce` and `jumping` of package `inter`. They print; the
output here is the list of what they print, a label or an instruction, an
instruction keeping as trees the expressions whose `toString` it prints. The
counters `Node.labels` and `Temp.count` are natural numbers.

`calls` records the arguments of every call of `jumping`. The program keeps
no such record; a property of the calls is stated over it.
-/

namespace LearningLinux.FrontEnd

inductive Instr where
  /-- `id = e` for a variable. -/
  | set (id : Id) (e : Expr)
  /-- `tN = e`. -/
  | setTemp (number : Nat) (e : Expr)
  /-- `array [ index ] = e`. -/
  | store (array : Id) (index e : Expr)
  | goto (l : Nat)
  | ifTrue (test : Expr) (l : Nat)
  | ifFalse (test : Expr) (l : Nat)
  deriving DecidableEq, Repr

inductive Item where
  | label (l : Nat)
  | instr (i : Instr)
  deriving DecidableEq, Repr

structure GState where
  labels : Nat
  count : Nat
  /-- `begin` and `after` of the loop nodes. -/
  loops : Nat → Nat × Nat
  out : List Item
  calls : List (Nat × Nat)

def GState.init : GState := ⟨0, 0, fun _ => (0, 0), [], []⟩

abbrev G := StateT GState (Except Err)

def newlabel : G Nat := fun s =>
  .ok (s.labels + 1, { s with labels := s.labels + 1 })

def emitlabel (l : Nat) : G Unit := fun s =>
  .ok ((), { s with out := s.out ++ [.label l] })

def emit (i : Instr) : G Unit := fun s =>
  .ok ((), { s with out := s.out ++ [.instr i] })

/-- `new Temp(type)`: its number. -/
def newTemp : G Nat := fun s =>
  .ok (s.count + 1, { s with count := s.count + 1 })

/-- The entry of `jumping(t, f)`. -/
def called (t f : Nat) : G Unit := fun s =>
  .ok ((), { s with calls := s.calls ++ [(t, f)] })

def setLoop (loop b a : Nat) : G Unit := fun s =>
  .ok ((), { s with loops := fun l => if l = loop then (b, a) else s.loops l })

def getLoop (loop : Nat) : G (Nat × Nat) := fun s => .ok (s.loops loop, s)

/-- Throwing, inside code generation. -/
def check {α : Type} (x : Except Err α) : G α := fun s =>
  x.map fun a => (a, s)

/-! ## Expressions -/

/-- `emitjumps`. -/
def emitjumps (test : Expr) (t f : Nat) : G Unit :=
  if t ≠ 0 ∧ f ≠ 0 then do
    emit (.ifTrue test t)
    emit (.goto f)
  else if t ≠ 0 then emit (.ifTrue test t)
  else if f ≠ 0 then emit (.ifFalse test f)
  else pure ()

/-- `Op.reduce`, of a node with type `type` whose `gen` is `gen`. -/
def opReduce (type : Option Ty) (gen : G Expr) : G Expr := do
  let x ← gen
  let n ← newTemp
  emit (.setTemp n x)
  pure (.temp n type)

def Expr.reduce : Expr → G Expr
  | .arith op x y => opReduce (Ty.max x.type y.type) do
      let x' ← x.reduce
      let y' ← y.reduce
      check (newArith op x' y')
  | .unary x => opReduce (Ty.max (some .int) x.type) do
      let x' ← x.reduce
      check (newUnary x')
  | .access a i type => opReduce (some type) do
      let i' ← i.reduce
      pure (.access a i' type)
  | e => pure e

def Expr.jumping : Expr → Nat → Nat → G Unit
  | .const .true, t, f => do
      called t f
      if t ≠ 0 then emit (.goto t)
  | .const .false, t, f => do
      called t f
      if f ≠ 0 then emit (.goto f)
  | .const _, t, f => called t f
  | .access a i type, t, f => do
      called t f
      let x ← (Expr.access a i type).reduce
      emitjumps x t f
  | .or x y, t, f => do
      called t f
      let label ← if t ≠ 0 then pure t else newlabel
      x.jumping label 0
      y.jumping t f
      if t = 0 then emitlabel label
  | .and x y, t, f => do
      called t f
      let label ← if f ≠ 0 then pure f else newlabel
      x.jumping 0 label
      y.jumping t f
      if f = 0 then emitlabel label
  | .not x, t, f => do
      called t f
      x.jumping f t
  | .rel op x y, t, f => do
      called t f
      let a ← x.reduce
      let b ← y.reduce
      emitjumps (.rel op a b) t f
  | e, t, f => do
      called t f
      emitjumps e t f

/-- `Logical.gen`, of a node with type `type`. -/
def logicalGen (type : Option Ty) (e : Expr) : G Expr := do
  let f ← newlabel
  let a ← newlabel
  let n ← newTemp
  e.jumping 0 f
  emit (.setTemp n (.const .true))
  emit (.goto a)
  emitlabel f
  emit (.setTemp n (.const .false))
  emitlabel a
  pure (.temp n type)

def Expr.gen : Expr → G Expr
  | .arith op x y => do
      let x' ← x.reduce
      let y' ← y.reduce
      check (newArith op x' y')
  | .unary x => do
      let x' ← x.reduce
      check (newUnary x')
  | .access a i type => do
      let i' ← i.reduce
      pure (.access a i' type)
  | .or x y => logicalGen (logicalCheck x.type y.type) (.or x y)
  | .and x y => logicalGen (logicalCheck x.type y.type) (.and x y)
  | .not x => logicalGen (logicalCheck x.type x.type) (.not x)
  | .rel op x y => logicalGen (relCheck x.type y.type) (.rel op x y)
  | e => pure e

/-! ## Statements -/

def Stmt.gen : Stmt → Nat → Nat → G Unit
  | .null, _, _ => pure ()
  | .set id x, _, _ => do
      let g ← x.gen
      emit (.set id g)
  | .setElem a i x, _, _ => do
      let s1 ← i.reduce
      let s2 ← x.reduce
      emit (.store a s1 s2)
  | .if x s, _, a => do
      let label ← newlabel
      x.jumping 0 a
      emitlabel label
      s.gen label a
  | .else x s1 s2, _, a => do
      let label1 ← newlabel
      let label2 ← newlabel
      x.jumping 0 label2
      emitlabel label1
      s1.gen label1 a
      emit (.goto a)
      emitlabel label2
      s2.gen label2 a
  | .while loop x s, b, a => do
      setLoop loop b a
      x.jumping 0 a
      let label ← newlabel
      emitlabel label
      s.gen label b
      emit (.goto b)
  | .do loop s x, b, a => do
      setLoop loop b a
      let label ← newlabel
      s.gen b label
      emitlabel label
      x.jumping b 0
  | .break loop, _, _ => do
      let (_, after) ← getLoop loop
      emit (.goto after)
  | .continue loop, _, _ => do
      let (begin, _) ← getLoop loop
      emit (.goto begin)
  | .seq s1 s2, b, a =>
      if s1 = .null then s2.gen b a
      else if s2 = .null then s1.gen b a
      else do
        let label ← newlabel
        s1.gen b label
        emitlabel label
        s2.gen label a

end LearningLinux.FrontEnd
