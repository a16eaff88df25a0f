import Mathlib.Data.List.Basic
import Mathlib.Logic.Function.Basic

/-!
# A stack of words in a memory of blocks

An address is a block and a byte offset into it. A stack grows downwards by
words of four bytes: `pushed` is the memory after a list of pushes, `down` and
`up` say where the stack pointer is after so many of them, or so many pops.
`Words` lists what the memory holds from an address upwards, the last word
pushed first.
-/

namespace LearningLinux.Lib

structure Loc (β : Type*) where
  block : β
  off : Int
deriving DecidableEq, Repr

namespace Loc

variable {β : Type*}

def add (l : Loc β) (d : Int) : Loc β := ⟨l.block, l.off + d⟩

@[simp] theorem add_block (l : Loc β) (d : Int) : (l.add d).block = l.block :=
  rfl

@[simp] theorem add_off (l : Loc β) (d : Int) : (l.add d).off = l.off + d :=
  rfl

@[simp] theorem add_zero (l : Loc β) : l.add 0 = l := by
  simp [add]

@[simp] theorem add_add (l : Loc β) (d e : Int) :
    (l.add d).add e = l.add (d + e) := by
  simp [add, Int.add_assoc]

/-- The stack pointer after `n` pushes. -/
def down (l : Loc β) : Nat → Loc β
  | 0 => l
  | n + 1 => (l.add (-4)).down n

/-- The stack pointer after `n` pops. -/
def up (l : Loc β) : Nat → Loc β
  | 0 => l
  | n + 1 => (l.add 4).up n

theorem down_eq (l : Loc β) (n : Nat) : l.down n = l.add (-4 * n) := by
  induction n generalizing l with
  | zero => simp [down]
  | succ n ih =>
      rw [down, ih, add_add]
      congr 1
      omega

theorem up_eq (l : Loc β) (n : Nat) : l.up n = l.add (4 * n) := by
  induction n generalizing l with
  | zero => simp [up]
  | succ n ih =>
      rw [up, ih, add_add]
      congr 1
      omega

theorem down_down (l : Loc β) (m n : Nat) :
    (l.down m).down n = l.down (m + n) := by
  simp only [down_eq, add_add]
  congr 1
  omega

end Loc

variable {β ν : Type*} {mem mem' : Loc β → ν} {l : Loc β} {ws : List ν}

/-- The words from `l` upwards. -/
def Words (mem : Loc β → ν) (l : Loc β) : List ν → Prop
  | [] => True
  | w :: ws => mem l = w ∧ Words mem (l.add 4) ws

/-- Memory is read only where the words are. -/
theorem Words.congr (h : Words mem l ws)
    (hmem : ∀ o, l.off ≤ o → o < l.off + 4 * ws.length →
      mem' ⟨l.block, o⟩ = mem ⟨l.block, o⟩) : Words mem' l ws := by
  induction ws generalizing l with
  | nil => trivial
  | cons w ws ih =>
      obtain ⟨hw, h⟩ := h
      simp only [List.length_cons] at hmem
      refine ⟨(hmem l.off (Int.le_refl l.off) (by omega)).trans hw, ih h ?_⟩
      intro o hle hlt
      simp only [Loc.add_off, Loc.add_block] at hle hlt ⊢
      exact hmem o (by omega) (by omega)

variable [DecidableEq β]

/-- Storing one of the words. -/
theorem Words.set (h : Words mem l ws) (i : Nat) (v : ν) :
    Words (Function.update mem (l.add (4 * i)) v) l (ws.set i v) := by
  induction ws generalizing l i with
  | nil => trivial
  | cons w ws ih =>
      obtain ⟨hw, h⟩ := h
      cases i with
      | zero =>
          refine ⟨by simp, h.congr fun o hle _ => Function.update_of_ne ?_ v mem⟩
          intro heq
          have hoff := congrArg Loc.off heq
          simp only [Loc.add_off] at hle hoff
          omega
      | succ i =>
          have hl : l.add (4 * (i + 1 : Nat)) = (l.add 4).add (4 * i) := by
            rw [Loc.add_add]
            congr 1
            omega
          refine ⟨?_, hl ▸ ih h i⟩
          rw [Function.update_of_ne _ v mem, hw]
          intro heq
          have hoff := congrArg Loc.off heq
          simp only [Loc.add_off] at hoff
          omega

/-- The memory after pushing `vs` one after the other, the stack pointer being
`l` at the start. -/
def pushed (mem : Loc β → ν) (l : Loc β) : List ν → Loc β → ν
  | [] => mem
  | v :: vs => pushed (Function.update mem (l.add (-4)) v) (l.add (-4)) vs

/-- A push leaves everything alone that is not below the stack pointer. -/
theorem pushed_of_not_below (vs : List ν) {l' : Loc β}
    (h : l'.block = l.block → l.off ≤ l'.off) :
    pushed mem l vs l' = mem l' := by
  induction vs generalizing mem l with
  | nil => rfl
  | cons v vs ih =>
      rw [pushed, ih]
      · refine Function.update_of_ne ?_ v mem
        rintro rfl
        have hle := h rfl
        simp only [Loc.add_off] at hle
        omega
      · intro hb
        have hle := h hb
        simp only [Loc.add_off]
        omega

/-- What is pushed lies on top of what was there, in the order of the pops. -/
theorem words_pushed (vs : List ν) (h : Words mem l ws) :
    Words (pushed mem l vs) (l.down vs.length) (vs.reverse ++ ws) := by
  induction vs generalizing mem l ws with
  | nil => exact h
  | cons v vs ih =>
      rw [List.reverse_cons, List.append_assoc]
      refine ih ⟨Function.update_self .., ?_⟩
      have hl : (l.add (-4)).add 4 = l := by simp
      rw [hl]
      refine h.congr fun o hle _ => Function.update_of_ne ?_ v mem
      intro heq
      have hoff := congrArg Loc.off heq
      simp only [Loc.add_off] at hoff
      omega

end LearningLinux.Lib
