import Mathlib.Control.Basic

/-!
# Computations that ask for their input

An `Iteratee β α` has come to an answer, or it stands where it needs the next
input. What other threads do meanwhile is not its business, so it is what is
left of a call that can be interrupted at every input.

`run` reads the inputs in a monad. `Takes` is a run by itself: the inputs are
asked for one by one, and there is no answer before the last of them. No input
can be left over and none can be missing, which is what framing is about.
-/

namespace LearningLinux.Lib

inductive Iteratee (β α : Type) where
  | done (a : α)
  | ask (next : β → Iteratee β α)

namespace Iteratee

variable {β α γ : Type}

def bind : Iteratee β α → (α → Iteratee β γ) → Iteratee β γ
  | .done a, f => f a
  | .ask next, f => .ask fun b => (next b).bind f

instance : Monad (Iteratee β) where
  pure := Iteratee.done
  bind := Iteratee.bind

/-- The next input. -/
def get : Iteratee β β := .ask .done

/-- The inputs come from a monad. -/
def run {m : Type → Type} [Monad m] (input : m β) : Iteratee β α → m α
  | .done a => pure a
  | .ask next => input >>= fun b => (next b).run input

/-- The inputs are asked for in turn, and the answer comes with the last. -/
inductive Takes : Iteratee β α → List β → α → Prop where
  | done (a : α) : Takes (.done a) [] a
  | ask {next : β → Iteratee β α} {b : β} {bs : List β} {a : α} :
      Takes (next b) bs a → Takes (.ask next) (b :: bs) a

section Run

variable {m : Type → Type} [Monad m] {input : m β}

@[simp] theorem run_pure (a : α) :
    (pure a : Iteratee β α).run input = pure a := rfl

@[simp] theorem run_get [LawfulMonad m] :
    (get : Iteratee β β).run input = input :=
  bind_pure input

@[simp] theorem run_bind [LawfulMonad m] (c : Iteratee β α)
    (f : α → Iteratee β γ) :
    (c >>= f).run input = c.run input >>= fun a => (f a).run input := by
  induction c with
  | done a => exact (pure_bind a fun a => (f a).run input).symm
  | ask next ih =>
      show (input >>= fun b => ((next b).bind f).run input) =
        (input >>= fun b => (next b).run input) >>= _
      rw [bind_assoc]
      exact bind_congr ih

@[simp] theorem run_ite {p : Prop} [Decidable p] (c d : Iteratee β α) :
    (if p then c else d).run input =
      if p then c.run input else d.run input :=
  apply_ite (run input) p c d

end Run

variable {c : Iteratee β α} {f : α → Iteratee β γ} {next : β → Iteratee β α}
  {b : β} {bs bs' : List β} {a a' : α} {g : γ}

theorem Takes.bind (hc : Takes c bs a) (hf : Takes (f a) bs' g) :
    Takes (c >>= f) (bs ++ bs') g := by
  induction hc with
  | done a => exact hf
  | ask _ ih => exact Takes.ask (ih hf)

theorem takes_get (b : β) : Takes get [b] b :=
  Takes.ask (.done b)

theorem Takes.get_bind {f : β → Iteratee β γ} (hf : Takes (f b) bs g) :
    Takes (get >>= f) (b :: bs) g :=
  (takes_get b).bind hf

/-- Something that asks has an input to come. -/
theorem Takes.cases_ask (h : Takes (.ask next) bs a) :
    ∃ b bs', bs = b :: bs' ∧ Takes (next b) bs' a := by
  cases h with
  | ask h => exact ⟨_, _, rfl, h⟩

theorem Takes.cases_done (h : Takes (.done a) bs a') : bs = [] ∧ a' = a := by
  cases h with
  | done => exact ⟨rfl, rfl⟩

end Iteratee

end LearningLinux.Lib
