import Mathlib.Algebra.Order.Ring.Int
import Mathlib.Data.Fintype.Basic
import Mathlib.Data.List.Basic
import Mathlib.Tactic.FinCases
import LearningLinux.Lib.Postfix

/-!
# The translator to postfix notation

`Parser` reads standard input one byte ahead and writes while it reads. What
`expr` does depends on what is still to come: at `input` the lookahead is the
first byte, or `-1` at the end (`State.at`).

The loop of `expr` takes an operator and a digit at a time. When it has come
so far as an expression, the expression stands in the output in postfix
notation, and one round puts the digit and then the operator behind it: this
is the expression with the new operator above it (`exprLoop_text`). So what
has been written can be run on the stack machine, and the input can be read
off it again.
-/

namespace LearningLinux.Postfix

open LearningLinux.Lib.Postfix

/-! ## `Parser` -/

structure State where
  lookahead : Int
  input : List UInt8
  output : List UInt8

inductive Result where
  | returned (s : State)
  | thrown (error : String) (s : State)
  | running

def Result.bind : Result → (State → Result) → Result
  | .returned s, f => f s
  | r, _ => r

/-- `System.in.read()` -/
def read : List UInt8 → Int × List UInt8
  | [] => (-1, [])
  | b :: bs => (b.toNat, bs)

/-- The parser in front of `input`, with `output` written. -/
def State.at (input output : List UInt8) : State where
  lookahead := (read input).1
  input := (read input).2
  output := output

/-- `Parser()` -/
def parser (input : List UInt8) : State := State.at input []

/-- `System.out.write(c)` -/
def State.write (s : State) (c : Int) : State :=
  { s with
    output := s.output ++ [UInt8.ofNat c.toNat] }

/-- `Character.isDigit((char)lookahead)`; no byte but these is a digit, and
neither is the character that `-1` becomes. -/
def isDigit (lookahead : Int) : Bool := 48 ≤ lookahead && lookahead ≤ 57

/-- `Parser.match` -/
def matchToken (t : Int) (s : State) : Result :=
  if s.lookahead = t then .returned (State.at s.input s.output)
  else .thrown "syntax error" s

def term (s : State) : Result :=
  if isDigit s.lookahead then matchToken s.lookahead (s.write s.lookahead)
  else .thrown "syntax error" s

/-- So many rounds of `while(true)`. -/
def exprLoop : Nat → State → Result
  | 0, _ => .running
  | fuel + 1, s =>
      if s.lookahead = 43 then
        (matchToken 43 s).bind fun s => (term s).bind fun s =>
          exprLoop fuel (s.write 43)
      else if s.lookahead = 45 then
        (matchToken 45 s).bind fun s => (term s).bind fun s =>
          exprLoop fuel (s.write 45)
      else .returned s

def expr (fuel : Nat) (s : State) : Result := (term s).bind (exprLoop fuel)

/-! ## Expressions -/

inductive Op where
  | plus
  | minus
deriving DecidableEq, Repr

def Op.byte : Op → UInt8
  | .plus => 43
  | .minus => 45

def Op.apply : Op → Int → Int → Int
  | .plus, x, y => x + y
  | .minus, x, y => x - y

def digitByte (d : Fin 10) : UInt8 := UInt8.ofNat (48 + d)

/-- `{(+|-) digit}` -/
abbrev Tail := List (Op × Fin 10)

def Tail.text (tail : Tail) : List UInt8 :=
  tail.flatMap fun p => [p.1.byte, digitByte p.2]

/-- `digit {(+|-) digit}` -/
structure Expr where
  first : Fin 10
  tail : Tail

def Expr.text (e : Expr) : List UInt8 := digitByte e.first :: Tail.text e.tail

/-- From left to right. -/
def Expr.value (e : Expr) : Int :=
  e.tail.foldl (fun v p => p.1.apply v (p.2 : Nat)) (e.first : Nat)

def StartsWithOp (input : List UInt8) : Prop :=
  ∃ o rest, input = Op.byte o :: rest

def StartsWithDigit (input : List UInt8) : Prop :=
  ∃ d rest, input = digitByte d :: rest

/-! ## What is written -/

def symByte : Sym (Fin 10) Op → UInt8
  | .operand d => digitByte d
  | .operator o => o.byte

def byteSym (b : UInt8) : Option (Sym (Fin 10) Op) :=
  if b = 43 then some (Sym.operator Op.plus)
  else if b = 45 then some (Sym.operator Op.minus)
  else if h : 48 ≤ b.toNat ∧ b.toNat < 58 then
    some (Sym.operand ⟨b.toNat - 48, by omega⟩)
  else none

/-- The value that the stack machine comes to. -/
def evaluate (output : List UInt8) : Option Int :=
  (output.mapM byteSym).bind (result (fun d : Fin 10 => (d : Nat)) Op.apply)

def infixText : OpTree (Fin 10) Op → List UInt8
  | .leaf d => [digitByte d]
  | .node o l r => infixText l ++ o.byte :: infixText r

/-- The input again. -/
def recover (output : List UInt8) : Option (List UInt8) :=
  ((output.mapM byteSym).bind (result OpTree.leaf OpTree.node)).map infixText

/-- The tree with what follows it. -/
def extend (t : OpTree (Fin 10) Op) (tail : Tail) : OpTree (Fin 10) Op :=
  tail.foldl (fun t p => OpTree.node p.1 t (OpTree.leaf p.2)) t

def Expr.tree (e : Expr) : OpTree (Fin 10) Op :=
  extend (OpTree.leaf e.first) e.tail

theorem byteSym_symByte (s : Sym (Fin 10) Op) :
    byteSym (symByte s) = some s := by
  cases s with
  | operand d => fin_cases d <;> rfl
  | operator o => cases o <;> rfl

theorem mapM_symByte (symbols : List (Sym (Fin 10) Op)) :
    (symbols.map symByte).mapM byteSym = some symbols := by
  induction symbols with
  | nil => rfl
  | cons s symbols ih => simp [byteSym_symByte, ih]

variable {t : OpTree (Fin 10) Op}

theorem value_extend (t : OpTree (Fin 10) Op) (tail : Tail) :
    (extend t tail).value (fun d : Fin 10 => ((d : Nat) : Int)) Op.apply =
      tail.foldl (fun v p => p.1.apply v (p.2 : Nat))
        (t.value (fun d : Fin 10 => ((d : Nat) : Int)) Op.apply) := by
  induction tail generalizing t with
  | nil => rfl
  | cons p tail ih => exact ih _

theorem infixText_extend (t : OpTree (Fin 10) Op) (tail : Tail) :
    infixText (extend t tail) = infixText t ++ Tail.text tail := by
  induction tail generalizing t with
  | nil => exact (List.append_nil _).symm
  | cons p tail ih =>
      refine (ih _).trans ?_
      simp [infixText, Tail.text]

theorem evaluate_tree (e : Expr) :
    evaluate (e.tree.symbols.map symByte) = some e.value := by
  rw [evaluate, mapM_symByte, Option.bind_some, result_symbols, Expr.tree,
    value_extend]
  rfl

theorem recover_tree (e : Expr) :
    recover (e.tree.symbols.map symByte) = some e.text := by
  rw [recover, mapM_symByte, Option.bind_some, result_tree, Option.map_some,
    Expr.tree, infixText_extend]
  rfl

/-! ## The run -/

variable {input rest out : List UInt8} {fuel : Nat}

theorem digitByte_iff {b : UInt8} :
    isDigit (b.toNat : Int) = true ↔ ∃ d, b = digitByte d := by
  constructor
  · intro h
    have hb : 48 ≤ b.toNat ∧ b.toNat ≤ 57 := by
      simpa [isDigit] using h
    refine ⟨⟨b.toNat - 48, by omega⟩, UInt8.toNat_inj.mp ?_⟩
    have hsum : 48 + (b.toNat - 48) = b.toNat := by omega
    rw [digitByte, hsum, UInt8.ofNat_toNat]
  · rintro ⟨d, rfl⟩
    fin_cases d <;> rfl

theorem isDigit_at : isDigit (State.at input out).lookahead = true ↔
    StartsWithDigit input := by
  cases input with
  | nil => simp [State.at, read, isDigit, StartsWithDigit]
  | cons b rest =>
      refine digitByte_iff.trans ?_
      simp [StartsWithDigit]

theorem term_digit (d : Fin 10) :
    term (State.at (digitByte d :: rest) out) =
      .returned (State.at rest (out ++ [digitByte d])) := by
  have hdigit : isDigit (State.at (digitByte d :: rest) out).lookahead = true :=
    isDigit_at.mpr ⟨d, rest, rfl⟩
  rw [term, if_pos hdigit, matchToken]
  simp [State.at, State.write, read]

theorem term_other (h : ¬ StartsWithDigit input) :
    term (State.at input out) =
      .thrown "syntax error" (State.at input out) := by
  rw [term, if_neg fun hd => h (isDigit_at.mp hd)]

/-- The loop in front of an operator. -/
theorem exprLoop_op (o : Op) :
    exprLoop (fuel + 1) (State.at (o.byte :: rest) out) =
      (term (State.at rest out)).bind fun s =>
        exprLoop fuel (s.write o.byte.toNat) := by
  cases o <;> rfl

theorem exprLoop_stop (h : ¬ StartsWithOp input) :
    exprLoop (fuel + 1) (State.at input out) =
      .returned (State.at input out) := by
  have hne (o : Op) :
      (State.at input out).lookahead ≠ (o.byte.toNat : Int) := by
    intro heq
    cases input with
    | nil => cases o <;> cases heq
    | cons b rest =>
        have hb : b = o.byte := UInt8.toNat_inj.mp (Int.ofNat.inj heq)
        exact h ⟨o, rest, hb ▸ rfl⟩
  have hplus : (State.at input out).lookahead ≠ 43 := hne Op.plus
  have hminus : (State.at input out).lookahead ≠ 45 := hne Op.minus
  rw [exprLoop, if_neg hplus, if_neg hminus]

/-- The loop goes through a whole tail, and the tree in the output grows. -/
theorem exprLoop_text (tail : Tail) (t : OpTree (Fin 10) Op) :
    exprLoop (tail.length + fuel)
        (State.at (Tail.text tail ++ input) (t.symbols.map symByte)) =
      exprLoop fuel
        (State.at input ((extend t tail).symbols.map symByte)) := by
  induction tail generalizing t with
  | nil => simp [Tail.text, extend]
  | cons p tail ih =>
      obtain ⟨o, d⟩ := p
      have hround : exprLoop (tail.length + fuel + 1)
          (State.at (o.byte :: digitByte d :: (Tail.text tail ++ input))
            (t.symbols.map symByte)) =
          exprLoop (tail.length + fuel) (State.at (Tail.text tail ++ input)
            ((OpTree.node o t (OpTree.leaf d)).symbols.map symByte)) := by
        rw [exprLoop_op, term_digit, Result.bind]
        simp [State.at, State.write, OpTree.symbols, symByte]
      have hlength : (⟨o, d⟩ :: tail : Tail).length + fuel =
          tail.length + fuel + 1 := by
        rw [List.length_cons]
        omega
      rw [hlength]
      exact hround.trans (ih _)

/-- `expr` goes through a whole expression. -/
theorem expr_text (e : Expr) :
    expr (e.tail.length + fuel) (parser (e.text ++ input)) =
      exprLoop fuel (State.at input (e.tree.symbols.map symByte)) := by
  have hfirst : term (parser (e.text ++ input)) =
      .returned (State.at (Tail.text e.tail ++ input) [digitByte e.first]) :=
    term_digit e.first
  rw [expr, hfirst, Result.bind]
  exact exprLoop_text e.tail (OpTree.leaf e.first)

/-- Behind a digit, operators and digits go on as far as they can. -/
theorem tail_forms (input : List UInt8) : ∃ (tail : Tail) (rest : List UInt8),
    input = Tail.text tail ++ rest ∧ (¬ StartsWithOp rest ∨
      ∃ (o : Op) (rest' : List UInt8),
        rest = o.byte :: rest' ∧ ¬ StartsWithDigit rest') := by
  induction hn : input.length using Nat.strongRecOn generalizing input with
  | ind n ih =>
      by_cases hop : StartsWithOp input
      · obtain ⟨o, rest, rfl⟩ := hop
        by_cases hdigit : StartsWithDigit rest
        · obtain ⟨d, rest, rfl⟩ := hdigit
          have hlt : rest.length < n := by
            rw [← hn]
            simp only [List.length_cons]
            omega
          obtain ⟨tail, rest', rfl, hrest⟩ := ih _ hlt rest rfl
          exact ⟨⟨o, d⟩ :: tail, rest', rfl, hrest⟩
        · exact ⟨[], o.byte :: rest, rfl, Or.inr ⟨o, rest, rfl, hdigit⟩⟩
      · exact ⟨[], input, rfl, Or.inl hop⟩

/-- Every input is an expression with something else behind it, or goes wrong
where a digit should be. -/
theorem input_forms (input : List UInt8) :
    (∃ (e : Expr) (rest : List UInt8),
      input = e.text ++ rest ∧ ¬ StartsWithOp rest) ∨
    ¬ StartsWithDigit input ∨
    ∃ (e : Expr) (o : Op) (rest : List UInt8),
      input = e.text ++ o.byte :: rest ∧ ¬ StartsWithDigit rest := by
  by_cases hdigit : StartsWithDigit input
  · obtain ⟨d, input, rfl⟩ := hdigit
    obtain ⟨tail, rest, rfl, hrest | ⟨o, rest, rfl, hrest⟩⟩ := tail_forms input
    · exact Or.inl ⟨⟨d, tail⟩, rest, rfl, hrest⟩
    · exact Or.inr (Or.inr ⟨⟨d, tail⟩, o, rest, rfl, hrest⟩)
  · exact Or.inr (Or.inl hdigit)

/-- What `expr` does with an input, whether it is a translation or an error. -/
theorem expr_translates :
    (∀ (e : Expr) rest, ¬ StartsWithOp rest →
      ∃ fuel s, expr fuel (parser (e.text ++ rest)) = .returned s ∧
        evaluate s.output = some e.value ∧ recover s.output = some e.text) ∧
    ∀ input, (¬ StartsWithDigit input ∨
        ∃ (e : Expr) (o : Op) (rest : List UInt8),
          input = e.text ++ o.byte :: rest ∧ ¬ StartsWithDigit rest) →
      ∃ fuel s, expr fuel (parser input) = .thrown "syntax error" s := by
  constructor
  · intro e rest hrest
    refine ⟨e.tail.length + 1, State.at rest (e.tree.symbols.map symByte), ?_,
      evaluate_tree e, recover_tree e⟩
    rw [expr_text, exprLoop_stop hrest]
  · rintro input (hdigit | ⟨e, o, rest, rfl, hdigit⟩)
    · refine ⟨0, State.at input [], ?_⟩
      rw [expr, parser, term_other hdigit]
      rfl
    · refine ⟨e.tail.length + 1,
        State.at rest (e.tree.symbols.map symByte), ?_⟩
      rw [expr_text, exprLoop_op, term_other hdigit]
      rfl

/-- `9-5+2` and a line feed, and `9-` with nothing behind it. -/
theorem expr_translates_nine_minus :
    (∃ fuel s, expr fuel (parser [57, 45, 53, 43, 50, 10]) = .returned s ∧
      evaluate s.output = some 6 ∧
        recover s.output = some [57, 45, 53, 43, 50]) ∧
      ∃ fuel s, expr fuel (parser [57, 45]) = .thrown "syntax error" s := by
  obtain ⟨hreturned, hthrown⟩ := expr_translates
  constructor
  · refine hreturned ⟨9, [(.minus, 5), (.plus, 2)]⟩ [10] ?_
    rintro ⟨o, rest, heq⟩
    cases o <;> cases heq
  · refine hthrown [57, 45] (Or.inr ⟨⟨9, []⟩, .minus, [], rfl, ?_⟩)
    rintro ⟨d, rest, heq⟩
    cases heq

end LearningLinux.Postfix
