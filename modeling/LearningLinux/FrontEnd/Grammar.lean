import LearningLinux.FrontEnd.Parser

/-!
# The grammar, and what a parse tree means to the semantic actions

The productions of the README as types of parse trees, an `ETree` for every
nonterminal of the expressions and an `STree` for statements and their
sequences. `yield` is the string of tokens a tree derives. Two productions
are not in the README but in the code and its tests: the empty statement and
`continue`. Declarations and statements may alternate in a block, and a
declaration may have several declarators. The code lets `=` stand between
these where the language has a comma, so a separator is part of the tree;
`documented` is the trees without `=`.

`perform` runs the semantic actions over a tree, in the order in which the
parser runs them while it reads the tree's tokens. That it is the parser's
order is what `ParserSound` and `ParserComplete` prove, and from then on
everything about accepted programs is an induction over trees.
-/

namespace LearningLinux.FrontEnd

/-! ## Trees -/

inductive Level where
  | bin (l : BinLevel)
  | rel
  | unary
  | factor
  | loc
  deriving DecidableEq, Repr

/-- The nonterminal of the operands of a level. -/
def BinLevel.operand : BinLevel → Level
  | .bool => .bin .join
  | .join => .bin .equality
  | .equality => .rel
  | .expr => .bin .term
  | .term => .unary

inductive ETree : Level → Type where
  | binary {l : BinLevel} (x : ETree (.bin l)) (tok : Token) (op : BinOp)
      (h : l.op tok = some op) (y : ETree l.operand) : ETree (.bin l)
  | operand (l : BinLevel) (x : ETree l.operand) : ETree (.bin l)
  | relation (x : ETree (.bin .expr)) (tok : Token) (op : RelOp)
      (h : relOp tok = some op) (y : ETree (.bin .expr)) : ETree .rel
  | plain (x : ETree (.bin .expr)) : ETree .rel
  | minus (x : ETree .unary) : ETree .unary
  | bang (x : ETree .unary) : ETree .unary
  | single (x : ETree .factor) : ETree .unary
  | paren (x : ETree (.bin .bool)) : ETree .factor
  | num (n : Num) : ETree .factor
  | real (r : Real) : ETree .factor
  | true : ETree .factor
  | false : ETree .factor
  | var (w : Word) : ETree .factor
  | elem (x : ETree .loc) : ETree .factor
  | first (w : Word) (i : ETree (.bin .bool)) : ETree .loc
  | more (x : ETree .loc) (i : ETree (.bin .bool)) : ETree .loc

abbrev BoolTree := ETree (.bin .bool)

/-- What stands between two declarators. -/
inductive Sep where
  | comma
  | assign
  deriving DecidableEq, Repr

structure Decl where
  basic : Basic
  dims : List Num
  first : Word
  more : List (Sep × Word)
  deriving DecidableEq, Repr

inductive SKind where
  | stmt
  | stmts
  deriving DecidableEq, Repr

inductive STree : SKind → Type where
  | empty : STree .stmt
  | ifThen (c : BoolTree) (s : STree .stmt) : STree .stmt
  | ifElse (c : BoolTree) (s1 s2 : STree .stmt) : STree .stmt
  | whileDo (c : BoolTree) (s : STree .stmt) : STree .stmt
  | doWhile (s : STree .stmt) (c : BoolTree) : STree .stmt
  | break : STree .stmt
  | continue : STree .stmt
  | block (b : STree .stmts) : STree .stmt
  | assign (w : Word) (x : BoolTree) : STree .stmt
  | assignElem (loc : ETree .loc) (x : BoolTree) : STree .stmt
  | done (ds : List Decl) : STree .stmts
  | cons (ds : List Decl) (s : STree .stmt) (rest : STree .stmts) :
      STree .stmts

/-! ## Tokens of a tree -/

def ETree.yield {k : Level} : ETree k → List Token
  | .binary x tok _ _ y => x.yield ++ tok :: y.yield
  | .operand _ x => x.yield
  | .relation x tok _ _ y => x.yield ++ tok :: y.yield
  | .plain x => x.yield
  | .minus x => .chr '-' :: x.yield
  | .bang x => .chr '!' :: x.yield
  | .single x => x.yield
  | .paren x => .chr '(' :: x.yield ++ [.chr ')']
  | .num n => [.num n]
  | .real r => [.real r]
  | .true => [.true]
  | .false => [.false]
  | .var w => [.id w]
  | .elem x => x.yield
  | .first w i => .id w :: .chr '[' :: i.yield ++ [.chr ']']
  | .more x i => x.yield ++ .chr '[' :: i.yield ++ [.chr ']']

def Sep.token : Sep → Token
  | .comma => .chr ','
  | .assign => .chr '='

def dimTokens (n : Num) : List Token := [.chr '[', .num n, .chr ']']

def Decl.yield (d : Decl) : List Token :=
  .basic d.basic :: d.dims.flatMap dimTokens ++
    .id d.first :: d.more.flatMap (fun p => [p.1.token, .id p.2]) ++
      [Token.chr ';']

def STree.yield {k : SKind} : STree k → List Token
  | .empty => [.chr ';']
  | .ifThen c s => .if :: .chr '(' :: c.yield ++ .chr ')' :: s.yield
  | .ifElse c s1 s2 =>
      .if :: .chr '(' :: c.yield ++ .chr ')' :: s1.yield ++ .else :: s2.yield
  | .whileDo c s => .while :: .chr '(' :: c.yield ++ .chr ')' :: s.yield
  | .doWhile s c =>
      .do :: s.yield ++ .while :: .chr '(' :: c.yield ++ [.chr ')', .chr ';']
  | .break => [.break, .chr ';']
  | .continue => [.continue, .chr ';']
  | .block b => .chr '{' :: b.yield ++ [.chr '}']
  | .assign w x => .id w :: .chr '=' :: x.yield ++ [.chr ';']
  | .assignElem loc x => loc.yield ++ .chr '=' :: x.yield ++ [.chr ';']
  | .done ds => ds.flatMap Decl.yield
  | .cons ds s rest => ds.flatMap Decl.yield ++ s.yield ++ rest.yield

theorem ETree.yield_pos {k : Level} (t : ETree k) : 0 < t.yield.length := by
  induction t with
  | binary x tok op h y ihx ihy =>
      rw [ETree.yield, List.length_append, List.length_cons]
      omega
  | operand l x ih => exact ih
  | relation x tok op h y ihx ihy =>
      rw [ETree.yield, List.length_append, List.length_cons]
      omega
  | plain x ih => exact ih
  | single x ih => exact ih
  | elem x ih => exact ih
  | more x i ihx ihi =>
      rw [ETree.yield]
      simp only [List.length_append, List.length_cons]
      omega
  | _ => simp [ETree.yield]

theorem STree.yield_pos (t : STree .stmt) : 0 < t.yield.length := by
  cases t with
  | assignElem loc x =>
      rw [STree.yield]
      simp only [List.length_append, List.length_cons]
      omega
  | _ => simp [STree.yield]

/-- No `=` stands between declarators. -/
def Decl.documented (d : Decl) : Bool := d.more.all fun p => p.1 = .comma

def STree.documented {k : SKind} : STree k → Bool
  | .ifThen _ s => s.documented
  | .ifElse _ s1 s2 => s1.documented && s2.documented
  | .whileDo _ s => s.documented
  | .doWhile s _ => s.documented
  | .block b => b.documented
  | .done ds => ds.all Decl.documented
  | .cons ds s rest =>
      ds.all Decl.documented && s.documented && rest.documented
  | _ => true

/-! ## The actions of a tree -/

def ETree.perform {k : Level} : ETree k → Act Expr
  | .binary x _ op _ y => do
      let x' ← x.perform
      let y' ← y.perform
      lift (newBin op x' y')
  | .operand _ x => x.perform
  | .relation x _ op _ y => do
      let x' ← x.perform
      let y' ← y.perform
      lift (newRel op x' y')
  | .plain x => x.perform
  | .minus x => do
      let x' ← x.perform
      lift (newUnary x')
  | .bang x => do
      let x' ← x.perform
      lift (newNot x')
  | .single x => x.perform
  | .paren x => x.perform
  | .num n => pure (.const (.num n.value))
  | .real r => pure (.const (.real r))
  | .true => pure (.const .true)
  | .false => pure (.const .false)
  | .var w => do
      let id ← resolve w
      pure (.id id)
  | .elem x => x.perform
  | .first w i => do
      let id ← resolve w
      let i' ← i.perform
      let (t1, type) ← lift (scale i' id.type)
      pure (.access id t1 type)
  | .more x i => do
      match ← x.perform with
      | .access id loc type => do
          let i' ← i.perform
          let (t1, type') ← lift (scale i' type)
          let t2 ← lift (newArith .add loc t1)
          pure (.access id t2 type')
      | _ => throws "not a location"

def Decl.type (d : Decl) : Ty := d.dims.foldr .array (.basic d.basic)

def performMore (p : Ty) : List (Sep × Word) → Act Unit
  | [] => pure ()
  | (sep, w) :: more => do
      match sep with
      | .comma => pure ()
      | .assign => record .assignSep
      declare w p
      performMore p more

def Decl.perform (d : Decl) : Act Unit := do
  declare d.first d.type
  performMore d.type d.more

def performDecls : List Decl → Act Unit
  | [] => pure ()
  | d :: ds => do
      d.perform
      performDecls ds

def STree.perform {k : SKind} : STree k → Act Stmt
  | .empty => pure .null
  | .ifThen c s => do
      let x ← c.perform
      let s1 ← s.perform
      lift (newIf x s1)
  | .ifElse c s1 s2 => do
      let x ← c.perform
      let s1' ← s1.perform
      let s2' ← s2.perform
      lift (newElse x s1' s2')
  | .whileDo c s => do
      let (node, saved) ← enterLoop
      let x ← c.perform
      let s1 ← s.perform
      let r ← lift (initWhile node x s1)
      leaveLoop saved
      pure r
  | .doWhile s c => do
      let (node, saved) ← enterLoop
      let s1 ← s.perform
      let x ← c.perform
      let r ← lift (initDo node s1 x)
      leaveLoop saved
      pure r
  | .break => makeBreak
  | .continue => makeContinue
  | .block b => do
      let saved ← openEnv
      let s ← b.perform
      closeEnv saved
      pure s
  | .assign w x => do
      let id ← resolve w
      let x' ← x.perform
      lift (newSet id x')
  | .assignElem loc x => do
      match ← loc.perform with
      | .access id i type => do
          let y ← x.perform
          lift (newSetElem id i type y)
      | _ => throws "not a location"
  | .done ds => do
      performDecls ds
      pure .null
  | .cons ds s rest => do
      performDecls ds
      let s1 ← s.perform
      let s2 ← rest.perform
      pure (.seq s1 s2)

-- The equations of these four take long to make. Made here, they are ready
-- when the proofs about the grammar, which are checked in parallel, ask.
attribute [local simp] ETree.yield STree.yield ETree.perform STree.perform

end LearningLinux.FrontEnd
