import Mathlib.Init

/-!
# Postfix notation and the stack machine

Expressions over operands and binary operators, and what they look like when
every operator is written after its operands. The stack machine takes any
meaning of the operands and operators; run on what an expression is written as
it comes to the value of the expression (`result_symbols`). With the
expressions themselves for values it gives the expression back, so nothing is
lost in the writing (`result_tree`).
-/

namespace LearningLinux.Lib.Postfix

variable {α β γ : Type}

inductive Sym (α β : Type) where
  | operand (a : α)
  | operator (b : β)

inductive OpTree (α β : Type) where
  | leaf (a : α)
  | node (b : β) (l r : OpTree α β)

def OpTree.symbols : OpTree α β → List (Sym α β)
  | .leaf a => [Sym.operand a]
  | .node b l r => l.symbols ++ r.symbols ++ [Sym.operator b]

def OpTree.value (f : α → γ) (g : β → γ → γ → γ) : OpTree α β → γ
  | .leaf a => f a
  | .node b l r => g b (l.value f g) (r.value f g)

/-! ## The machine -/

/-- An operator takes its right operand from the top of the stack. -/
def step (f : α → γ) (g : β → γ → γ → γ) : List γ → Sym α β → Option (List γ)
  | stack, .operand a => some (f a :: stack)
  | y :: x :: stack, .operator b => some (g b x y :: stack)
  | _, .operator _ => none

def run (f : α → γ) (g : β → γ → γ → γ) (stack : List γ)
    (symbols : List (Sym α β)) : Option (List γ) :=
  symbols.foldlM (step f g) stack

/-- What is left when the machine has stopped with one value. -/
def result (f : α → γ) (g : β → γ → γ → γ) (symbols : List (Sym α β)) :
    Option γ :=
  match run f g [] symbols with
  | some [v] => some v
  | _ => none

variable {f : α → γ} {g : β → γ → γ → γ}

theorem run_append {stack stack' : List γ} {s s' : List (Sym α β)}
    (h : run f g stack s = some stack') :
    run f g stack (s ++ s') = run f g stack' s' := by
  rw [run] at h
  rw [run, List.foldlM_append, h]
  rfl

theorem run_symbols (t : OpTree α β) (stack : List γ) :
    run f g stack t.symbols = some (t.value f g :: stack) := by
  induction t generalizing stack with
  | leaf a => rfl
  | node b l r ihl ihr =>
      have hboth : run f g stack (l.symbols ++ r.symbols) =
          some (r.value f g :: l.value f g :: stack) := by
        rw [run_append (ihl stack), ihr]
      rw [OpTree.symbols, run_append hboth]
      rfl

theorem result_symbols (t : OpTree α β) :
    result f g t.symbols = some (t.value f g) := by
  rw [result, run_symbols]

theorem value_tree (t : OpTree α β) : t.value OpTree.leaf OpTree.node = t := by
  induction t with
  | leaf a => rfl
  | node b l r ihl ihr => rw [OpTree.value, ihl, ihr]

theorem result_tree (t : OpTree α β) :
    result OpTree.leaf OpTree.node t.symbols = some t := by
  rw [result_symbols, value_tree]

end LearningLinux.Lib.Postfix
