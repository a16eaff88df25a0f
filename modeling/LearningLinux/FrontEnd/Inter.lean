import LearningLinux.FrontEnd.Symbols

/-!
# The syntax trees of package `inter`

A constructor of a Java class that checks types and throws is a function into
`Except` here, under the name of the class; the type a node carries is
computed from its operands, `none` where the constructor would have thrown.

`While` and `Do` nodes are objects that `Break` and `Continue` nodes point
to, and whose `begin` and `after` are set during code generation. Such a
node has a number, and the pointers are these numbers.
-/

namespace LearningLinux.FrontEnd

inductive ArithOp where
  | add
  | sub
  | mul
  | div
  deriving DecidableEq, Repr

inductive RelOp where
  | eq
  | ne
  | lt
  | le
  | ge
  | gt
  deriving DecidableEq, Repr

inductive Const where
  | num (value : Int)
  | real (r : Real)
  | true
  | false
  deriving DecidableEq, Repr

def Const.type : Const → Ty
  | .num _ => .int
  | .real _ => .float
  | .true => .bool
  | .false => .bool

inductive Expr where
  | id (i : Id)
  | temp (number : Nat) (type : Option Ty)
  | const (c : Const)
  | arith (op : ArithOp) (expr1 expr2 : Expr)
  | unary (expr : Expr)
  | access (array : Id) (index : Expr) (type : Ty)
  | or (expr1 expr2 : Expr)
  | and (expr1 expr2 : Expr)
  | not (expr : Expr)
  | rel (op : RelOp) (expr1 expr2 : Expr)
  deriving DecidableEq, Repr

/-- `Logical.check`. -/
def logicalCheck (p1 p2 : Option Ty) : Option Ty :=
  if p1 = some .bool ∧ p2 = some .bool then some .bool else none

/-- `p instanceof Array`. -/
def isArray : Option Ty → Bool
  | some p => p.isArray
  | none => false

/-- `Rel.check`. -/
def relCheck (p1 p2 : Option Ty) : Option Ty :=
  if isArray p1 ∨ isArray p2 then none
  else if Ty.numeric p1 ∧ Ty.numeric p2 then some .bool
  else if p1 = p2 then some .bool
  else none

/-- The field `type`. -/
def Expr.type : Expr → Option Ty
  | .id i => some i.type
  | .temp _ type => type
  | .const c => some c.type
  | .arith _ x y => Ty.max x.type y.type
  | .unary x => Ty.max (some .int) x.type
  | .access _ _ type => some type
  | .or x y => logicalCheck x.type y.type
  | .and x y => logicalCheck x.type y.type
  | .not x => logicalCheck x.type x.type
  | .rel _ x y => relCheck x.type y.type

/-- Running out of the model's fuel is kept apart from an `Error` the program
throws. -/
inductive Err where
  | outOfFuel
  | error (message : String)
  deriving DecidableEq, Repr

/-- The end of the constructors of `Arith`, `Unary` and the subclasses of
`Logical`: `if (type == null) error("type error")`. -/
def typed (x : Expr) : Except Err Expr :=
  if x.type = none then .error (.error "type error") else .ok x

def newArith (op : ArithOp) (x y : Expr) : Except Err Expr :=
  typed (.arith op x y)

def newUnary (x : Expr) : Except Err Expr := typed (.unary x)

def newOr (x y : Expr) : Except Err Expr := typed (.or x y)

def newAnd (x y : Expr) : Except Err Expr := typed (.and x y)

def newNot (x : Expr) : Except Err Expr := typed (.not x)

def newRel (op : RelOp) (x y : Expr) : Except Err Expr := typed (.rel op x y)

/-! ## Statements -/

inductive Stmt where
  | null
  | set (id : Id) (expr : Expr)
  | setElem (array : Id) (index expr : Expr)
  | if (expr : Expr) (stmt : Stmt)
  | else (expr : Expr) (stmt1 stmt2 : Stmt)
  | while (loop : Nat) (expr : Expr) (stmt : Stmt)
  | do (loop : Nat) (stmt : Stmt) (expr : Expr)
  | break (loop : Nat)
  | continue (loop : Nat)
  | seq (stmt1 stmt2 : Stmt)
  deriving DecidableEq, Repr

/-- `Set.check`. -/
def setCheck (p1 p2 : Option Ty) : Option Ty :=
  if Ty.numeric p1 ∧ Ty.numeric p2 then p2
  else if p1 = some .bool ∧ p2 = some .bool then p2
  else none

/-- `SetElem.check`. -/
def setElemCheck (p1 p2 : Option Ty) : Option Ty :=
  if isArray p1 ∨ isArray p2 then none
  else if p1 = p2 then p2
  else if Ty.numeric p1 ∧ Ty.numeric p2 then p2
  else none

def newSet (id : Id) (x : Expr) : Except Err Stmt :=
  if setCheck (some id.type) x.type = none then .error (.error "type error")
  else .ok (.set id x)

/-- `new SetElem(x, y)`, for the `Access` node `x` of `array`, `index` and
`type`. -/
def newSetElem (array : Id) (index : Expr) (type : Ty) (y : Expr) :
    Except Err Stmt :=
  if setElemCheck (some type) y.type = none then .error (.error "type error")
  else .ok (.setElem array index y)

/-- The test of the conditions in `If`, `Else`, `While` and `Do`. -/
def condition (x : Expr) (message : String) : Except Err Unit :=
  if x.type ≠ some .bool then .error (.error message) else .ok ()

def newIf (x : Expr) (s : Stmt) : Except Err Stmt := do
  condition x "boolean required in if"
  .ok (.if x s)

def newElse (x : Expr) (s1 s2 : Stmt) : Except Err Stmt := do
  condition x "boolean required in if"
  .ok (.else x s1 s2)

/-- `While.init`. -/
def initWhile (loop : Nat) (x : Expr) (s : Stmt) : Except Err Stmt := do
  condition x "boolean required in while"
  .ok (.while loop x s)

/-- `Do.init`. -/
def initDo (loop : Nat) (s : Stmt) (x : Expr) : Except Err Stmt := do
  condition x "boolean required in do"
  .ok (.do loop s x)

/-- `new Break()` and `new Continue()`, with `Stmt.Enclosing`; `none` is
`Stmt.Null`. -/
def newBreak (enclosing : Option Nat) : Except Err Stmt :=
  match enclosing with
  | none => .error (.error "unenclosed break")
  | some loop => .ok (.break loop)

def newContinue (enclosing : Option Nat) : Except Err Stmt :=
  match enclosing with
  | none => .error (.error "unenclosed continue")
  | some loop => .ok (.continue loop)

end LearningLinux.FrontEnd
