import LearningLinux.FrontEnd.Gen

/-!
# The parser

`Parser.java`, a predictive parser with one token of lookahead. Every method
works on the tokens still to come, the first of which is `look`, and on what
the semantic actions keep: `top`, `used`, the counter `Id.now`,
`Stmt.Enclosing` and the number of loop nodes created. An `Error` it throws
is `Except.error`; the line number its message starts with is left out.

The methods that call each other are bounded by `fuel`. `program` gives them
enough for every input, so running out of it never decides anything.

The actions also write down what they do, latest first: blocks opened and
closed, identifiers declared and used. The program keeps no such log; it is
what statements about scopes and storage are about.
-/

namespace LearningLinux.FrontEnd

inductive Event where
  | opened
  | closed
  | decl (id : Id)
  | use (w : Word) (id : Id)
  /-- An `=` between two declarators. -/
  | assignSep
  deriving DecidableEq, Repr

/-! ## The semantic actions -/

/-- What the actions keep. -/
structure Sem where
  top : Env
  used : Int
  now : Nat
  enclosing : Option Nat
  loops : Nat
  log : List Event

def Sem.init : Sem := ⟨[], 0, 0, none, 0, []⟩

abbrev Act := StateT Sem (Except Err)

def throws {α : Type} (message : String) : Act α := fun _ =>
  .error (.error message)

def lift {α : Type} (x : Except Err α) : Act α := fun s =>
  x.map fun a => (a, s)

def record (e : Event) : Act Unit := fun s =>
  .ok ((), { s with log := e :: s.log })

/-- `top = new Env(top)`, with the value of `top` before. -/
def openEnv : Act Env := fun s =>
  .ok (s.top, { s with top := ([] : Table) :: s.top, log := .opened :: s.log })

/-- `top = savedEnv`. -/
def closeEnv (savedEnv : Env) : Act Unit := fun s =>
  .ok ((), { s with top := savedEnv, log := .closed :: s.log })

/-- The declaration of one identifier: the part of `decls` between
`match(Tag.ID)` and the test of the separator. -/
def declare (tok : Word) (p : Ty) : Act Unit := fun s =>
  let id : Id := ⟨tok, p, s.used, s.now⟩
  match s.top with
  | [] => .error (.error "NullPointerException")
  | table :: prev =>
      if table.get tok = none then
        .ok ((), { s with
          top := table.put tok id :: prev
          now := s.now + 1
          used := wrap (s.used + p.width)
          log := .decl id :: s.log })
      else .error (.error ("redefine of id " ++ String.ofList tok.lexeme))

/-- `top.get(t)` with its test, in `assign` and `factor`. -/
def resolve (t : Word) : Act Id := fun s =>
  match s.top.get t with
  | none => .error (.error (String.ofList t.lexeme ++ " undeclared"))
  | some id => .ok (id, { s with log := .use t id :: s.log })

/-- `new While()` or `new Do()`, which becomes `Stmt.Enclosing`: the node and
the value of `Stmt.Enclosing` before. -/
def enterLoop : Act (Nat × Option Nat) := fun s =>
  .ok ((s.loops, s.enclosing),
    { s with loops := s.loops + 1, enclosing := some s.loops })

/-- `Stmt.Enclosing = savedStmt`. -/
def leaveLoop (savedStmt : Option Nat) : Act Unit := fun s =>
  .ok ((), { s with enclosing := savedStmt })

def makeBreak : Act Stmt := fun s =>
  (newBreak s.enclosing).map fun x => (x, s)

def makeContinue : Act Stmt := fun s =>
  (newContinue s.enclosing).map fun x => (x, s)

/-- One subscript: `type = ((Array) type).of` and the product of the index
with the width of that. -/
def scale (i : Expr) (type : Ty) : Except Err (Expr × Ty) :=
  match type with
  | .basic _ => .error (.error "this object doesn't have so many dimensions")
  | .array _ of => do
      let t1 ← newArith .mul i (.const (.num of.width))
      .ok (t1, of)

/-! ## Tokens -/

structure PState where
  toks : List Token
  sem : Sem

abbrev P := StateT PState (Except Err)

def look : P Token := fun s => .ok (s.toks.headD Token.eof, s)

def move : P Unit := fun s => .ok ((), { s with toks := s.toks.tail })

def syntaxError {α : Type} : P α := fun _ => .error (.error "syntax error")

def outOfFuel {α : Type} : P α := fun _ => .error .outOfFuel

/-- `match(t)`, for a tag that has one token. -/
def matchTok (t : Token) : P Unit := do
  if (← look) = t then move else syntaxError

/-- `Token tok = look; match(tag)`, for a tag whose tokens carry data. -/
def matchTag {α : Type} (data : Token → Option α) : P α := do
  match data (← look) with
  | some a => do move; pure a
  | none => syntaxError

def Token.asId : Token → Option Word
  | .id w => some w
  | _ => none

def Token.asNum : Token → Option Num
  | .num n => some n
  | _ => none

def Token.asBasic : Token → Option Basic
  | .basic b => some b
  | _ => none

def matchId : P Word := matchTag Token.asId
def matchNum : P Num := matchTag Token.asNum
def matchBasic : P Basic := matchTag Token.asBasic

def act {α : Type} (x : Act α) : P α := fun s =>
  match x s.sem with
  | .error e => .error e
  | .ok (a, sem) => .ok (a, { s with sem := sem })

/-! ## Expressions -/

inductive BinOp where
  | or
  | and
  | rel (op : RelOp)
  | arith (op : ArithOp)
  deriving DecidableEq, Repr

def newBin : BinOp → Expr → Expr → Except Err Expr
  | .or, x, y => newOr x y
  | .and, x, y => newAnd x y
  | .rel op, x, y => newRel op x y
  | .arith op, x, y => newArith op x y

/-- The methods that parse a left-associative operator. -/
inductive BinLevel where
  | bool
  | join
  | equality
  | expr
  | term
  deriving DecidableEq, Repr

/-- The operators whose token keeps the loop of a level going. -/
def BinLevel.op : BinLevel → Token → Option BinOp
  | .bool, .or => some .or
  | .join, .and => some .and
  | .equality, .eq => some (.rel .eq)
  | .equality, .ne => some (.rel .ne)
  | .expr, .chr '+' => some (.arith .add)
  | .expr, .chr '-' => some (.arith .sub)
  | .term, .chr '*' => some (.arith .mul)
  | .term, .chr '/' => some (.arith .div)
  | _, _ => none

/-- The operators of `rel`, which does not loop. -/
def relOp : Token → Option RelOp
  | .chr '<' => some .lt
  | .le => some .le
  | .ge => some .ge
  | .chr '>' => some .gt
  | _ => none

/-- The loop `while (look.tag == ...) x = new ...(tok, x, operand())`. -/
def binLoop (l : BinLevel) (operand : P Expr) : Nat → Expr → P Expr
  | 0, _ => outOfFuel
  | fuel + 1, x => do
      match l.op (← look) with
      | none => pure x
      | some op => do
          move
          let y ← operand
          let x' ← act (lift (newBin op x y))
          binLoop l operand fuel x'

/-- A level as a whole: an operand, then the loop. -/
def binary (l : BinLevel) (operand : P Expr) (fuel : Nat) : P Expr := do
  let x ← operand
  binLoop l operand fuel x

/-- One `[ bool ]` of `offset`. -/
def subscript (bool : P Expr) (type : Ty) : P (Expr × Ty) := do
  matchTok (.chr '[')
  let i ← bool
  matchTok (.chr ']')
  act (lift (scale i type))

/-- The loop of `offset` over the subscripts after the first. -/
def offsetLoop (bool : P Expr) : Nat → Expr → Ty → P (Expr × Ty)
  | 0, _, _ => outOfFuel
  | fuel + 1, loc, type => do
      if (← look) = .chr '[' then do
        let (t1, type) ← subscript bool type
        let t2 ← act (lift (newArith .add loc t1))
        offsetLoop bool fuel t2 type
      else pure (loc, type)

mutual

def bool : Nat → P Expr
  | 0 => outOfFuel
  | fuel + 1 => binary .bool (join fuel) fuel

def join : Nat → P Expr
  | 0 => outOfFuel
  | fuel + 1 => binary .join (equality fuel) fuel

def equality : Nat → P Expr
  | 0 => outOfFuel
  | fuel + 1 => binary .equality (rel fuel) fuel

def rel : Nat → P Expr
  | 0 => outOfFuel
  | fuel + 1 => do
      let x ← expr fuel
      match relOp (← look) with
      | none => pure x
      | some op => do
          move
          let y ← expr fuel
          act (lift (newRel op x y))

def expr : Nat → P Expr
  | 0 => outOfFuel
  | fuel + 1 => binary .expr (term fuel) fuel

def term : Nat → P Expr
  | 0 => outOfFuel
  | fuel + 1 => binary .term (unary fuel) fuel

def unary : Nat → P Expr
  | 0 => outOfFuel
  | fuel + 1 => do
      let tok ← look
      if tok = .chr '-' then do
        move
        let x ← unary fuel
        act (lift (newUnary x))
      else if tok = .chr '!' then do
        move
        let x ← unary fuel
        act (lift (newNot x))
      else factor fuel

def factor : Nat → P Expr
  | 0 => outOfFuel
  | fuel + 1 => do
      match ← look with
      | .chr c =>
          if c = '(' then do
            move
            let x ← bool fuel
            matchTok (.chr ')')
            pure x
          else syntaxError
      | .num n => do move; pure (.const (.num n.value))
      | .real r => do move; pure (.const (.real r))
      | .true => do move; pure (.const .true)
      | .false => do move; pure (.const .false)
      | .id w => do
          let id ← act (resolve w)
          move
          if (← look) ≠ .chr '[' then pure (.id id)
          else do
            let (loc, type) ← offset fuel id
            pure (.access id loc type)
      | _ => syntaxError

/-- `offset(a)`: the index and the type of the `Access` it makes. -/
def offset : Nat → Id → P (Expr × Ty)
  | 0, _ => outOfFuel
  | fuel + 1, a => do
      let (t1, type) ← subscript (bool fuel) a.type
      offsetLoop (bool fuel) fuel t1 type

end

/-- One step of `factor`, by computation: the matches of its body are too
deep for the equation Lean would derive. -/
theorem factor_succ (fuel : Nat) : factor (fuel + 1) = (do
    match ← look with
    | .chr c =>
        if c = '(' then do
          move
          let x ← bool fuel
          matchTok (.chr ')')
          pure x
        else syntaxError
    | .num n => do move; pure (.const (.num n.value))
    | .real r => do move; pure (.const (.real r))
    | .true => do move; pure (.const .true)
    | .false => do move; pure (.const .false)
    | .id w => do
        let id ← act (resolve w)
        move
        if (← look) ≠ .chr '[' then pure (.id id)
        else do
          let (loc, type) ← offset fuel id
          pure (.access id loc type)
    | _ => syntaxError) := rfl

/-! ## Declarations -/

def dims : Nat → Ty → P Ty
  | 0, _ => outOfFuel
  | fuel + 1, p => do
      matchTok (.chr '[')
      let tok ← matchNum
      matchTok (.chr ']')
      if (← look) = .chr '[' then do
        let p' ← dims fuel p
        pure (.array tok p')
      else pure (.array tok p)

def type (fuel : Nat) : P Ty := do
  let b ← matchBasic
  if (← look) ≠ .chr '[' then pure (.basic b) else dims fuel (.basic b)

/-- The inner loop of `decls`: the declarators of one declaration. -/
def declarators (p : Ty) : Nat → P Unit
  | 0 => outOfFuel
  | fuel + 1 => do
      let tok ← matchId
      act (declare tok p)
      let sep ← look
      if sep = .chr ';' then matchTok (.chr ';')
      else if sep = .chr '=' then do
        matchTok (.chr '=')
        act (record .assignSep)
        declarators p fuel
      else do
        matchTok (.chr ',')
        declarators p fuel

def decls : Nat → P Unit
  | 0 => outOfFuel
  | fuel + 1 => do
      match ← look with
      | .basic _ => do
          let p ← type fuel
          declarators p fuel
          decls fuel
      | _ => pure ()

/-! ## Statements -/

/-- The `if` of `assign`, for the identifier it has read. -/
def assignTo (fuel : Nat) (id : Id) : P Stmt := do
  if (← look) = .chr '=' then do
    move
    let x ← bool fuel
    act (lift (newSet id x))
  else do
    let (loc, type) ← offset fuel id
    matchTok (.chr '=')
    let y ← bool fuel
    act (lift (newSetElem id loc type y))

def assign (fuel : Nat) : P Stmt := do
  let t ← matchId
  let id ← act (resolve t)
  let stmt ← assignTo fuel id
  matchTok (.chr ';')
  pure stmt

/-- The end of a block: the closing brace, which the outer block only looks
at. -/
def blockEnd (outer : Bool) : P Unit :=
  if outer then do
    if (← look) ≠ .chr '}' then syntaxError else pure ()
  else matchTok (.chr '}')

/-- `if (look.tag == Tag.BASIC) decls()`. -/
def declsIfAny (fuel : Nat) : P Unit := do
  match ← look with
  | .basic _ => decls fuel
  | _ => pure ()

/-! The three long cases of `stmt`, over the methods they call. -/

def ifStmt (bool : P Expr) (stmt : P Stmt) : P Stmt := do
  matchTok .if
  matchTok (.chr '(')
  let x ← bool
  matchTok (.chr ')')
  let s1 ← stmt
  if (← look) ≠ Token.else then act (lift (newIf x s1))
  else do
    matchTok .else
    let s2 ← stmt
    act (lift (newElse x s1 s2))

def whileStmt (bool : P Expr) (stmt : P Stmt) : P Stmt := do
  let (whilenode, savedStmt) ← act enterLoop
  matchTok .while
  matchTok (.chr '(')
  let x ← bool
  matchTok (.chr ')')
  let s1 ← stmt
  let s ← act (lift (initWhile whilenode x s1))
  act (leaveLoop savedStmt)
  pure s

def doStmt (bool : P Expr) (stmt : P Stmt) : P Stmt := do
  let (donode, savedStmt) ← act enterLoop
  matchTok .do
  let s1 ← stmt
  matchTok .while
  matchTok (.chr '(')
  let x ← bool
  matchTok (.chr ')')
  matchTok (.chr ';')
  let s ← act (lift (initDo donode s1 x))
  act (leaveLoop savedStmt)
  pure s

mutual

def block (outer : Bool) : Nat → P Stmt
  | 0 => outOfFuel
  | fuel + 1 => do
      matchTok (.chr '{')
      let savedEnv ← act openEnv
      let s ← stmts fuel
      blockEnd outer
      act (closeEnv savedEnv)
      pure s

def stmts : Nat → P Stmt
  | 0 => outOfFuel
  | fuel + 1 => do
      declsIfAny fuel
      if (← look) = .chr '}' then pure .null
      else do
        let s1 ← stmt fuel
        let s2 ← stmts fuel
        pure (.seq s1 s2)

def stmt : Nat → P Stmt
  | 0 => outOfFuel
  | fuel + 1 => do
      match ← look with
      | .chr c =>
          if c = ';' then do
            move
            pure .null
          else if c = '{' then block false fuel
          else assign fuel
      | .if => ifStmt (bool fuel) (stmt fuel)
      | .while => whileStmt (bool fuel) (stmt fuel)
      | .do => doStmt (bool fuel) (stmt fuel)
      | .break => do
          matchTok .break
          matchTok (.chr ';')
          act makeBreak
      | .continue => do
          matchTok .continue
          matchTok (.chr ';')
          act makeContinue
      | _ => assign fuel

end

/-- One step of `stmt`, by computation as for `factor`. -/
theorem stmt_succ (fuel : Nat) : stmt (fuel + 1) = (do
    match ← look with
    | .chr c =>
        if c = ';' then do
          move
          pure .null
        else if c = '{' then block false fuel
        else assign fuel
    | .if => ifStmt (bool fuel) (stmt fuel)
    | .while => whileStmt (bool fuel) (stmt fuel)
    | .do => doStmt (bool fuel) (stmt fuel)
    | .break => do
        matchTok .break
        matchTok (.chr ';')
        act makeBreak
    | .continue => do
        matchTok .continue
        matchTok (.chr ';')
        act makeContinue
    | _ => assign fuel) := rfl

/-! ## `program` -/

/-- What `program` leaves: the tree, the log of the actions and the state of
the code generator. -/
structure Output where
  stmt : Stmt
  log : List Event
  begin : Nat
  after : Nat
  gen : GState

/-- The part of `program` after the call of `block`. -/
def genProgram (s : Stmt) : G (Nat × Nat) := do
  let begin ← newlabel
  let after ← newlabel
  emitlabel begin
  s.gen begin after
  emitlabel after
  pure (begin, after)

/-- Enough for any way to parse so many tokens. -/
def enoughFuel (toks : List Token) : Nat := 20 * toks.length + 20

def program (toks : List Token) : Except Err Output := do
  let (s, st) ← block true (enoughFuel toks) ⟨toks, Sem.init⟩
  let ((begin, after), g) ← genProgram s GState.init
  .ok ⟨s, st.sem.log, begin, after, g⟩

/-- `Main.main`, with `text` as `System.in`. -/
def main (text : String) : Except Err Output :=
  program (tokenize text.toUTF8.toList)

end LearningLinux.FrontEnd
