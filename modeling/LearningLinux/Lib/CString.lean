import Mathlib.Data.List.Infix
import LearningLinux.Lib.ByteMem

/-!
# Strings that end in a NUL

`CStr m p s` says that the memory holds the bytes of `s` from the address `p`
on, none of them a NUL, and a NUL behind them. A loop that walks along a
string looks at it one byte at a time: `CStr.byte_end` and `cstr_cons` are the
two cases. Stores elsewhere leave a string alone (`CStr.outside`).
-/

namespace LearningLinux.Lib.ByteMem

variable {m m' : ByteMem} {p : Nat} {c : UInt8} {s t : List UInt8}

structure CStr (m : ByteMem) (p : Nat) (s : List UInt8) : Prop where
  pos : 0 < p
  fits : p + s.length < 2 ^ 32
  nonzero : 0 ∉ s
  holds : m.Holds p (s ++ [0])

theorem CStr.byte_end (h : m.CStr p []) : m.byte p = 0 :=
  h.holds 0 (by simp)

theorem cstr_cons : m.CStr p (c :: s) ↔
    0 < p ∧ m.byte p = c ∧ c ≠ 0 ∧ m.CStr (p + 1) s := by
  constructor
  · intro h
    have hfits := h.fits
    rw [List.length_cons] at hfits
    refine ⟨h.pos, h.holds 0 (by simp), (List.ne_of_not_mem_cons h.nonzero).symm,
      Nat.succ_pos _, by omega, List.not_mem_of_not_mem_cons h.nonzero,
      fun i hi => ?_⟩
    have hbyte := h.holds (i + 1) (by simpa using hi)
    rw [← Nat.add_assoc, Nat.add_right_comm] at hbyte
    simpa using hbyte
  · intro ⟨hpos, hbyte, hne, h⟩
    have hfits := h.fits
    refine ⟨hpos, by rw [List.length_cons]; omega,
      List.not_mem_cons_of_ne_of_not_mem hne.symm h.nonzero, fun i hi => ?_⟩
    cases i with
    | zero => exact hbyte
    | succ i =>
        have hi' : i < (s ++ [0]).length := by simpa using hi
        rw [← Nat.add_assoc, Nat.add_right_comm, h.holds i hi']
        simp

theorem CStr.outside {P : Nat → Prop} (h : m.CStr p s)
    (hout : Outside P m m') (hP : ∀ b, p ≤ b → b ≤ p + s.length → ¬ P b) :
    m'.CStr p s where
  pos := h.pos
  fits := h.fits
  nonzero := h.nonzero
  holds := by
    refine h.holds.outside hout fun b hlo hhi => hP b hlo ?_
    rw [List.length_append, List.length_singleton] at hhi
    omega

/-- An address holds one string at most. -/
theorem CStr.unique : ∀ {s t : List UInt8} {p : Nat}, m.CStr p s →
    m.CStr p t → s = t := by
  intro s
  induction s with
  | nil =>
      intro t p hs ht
      cases t with
      | nil => rfl
      | cons c t =>
          obtain ⟨-, hbyte, hne, -⟩ := cstr_cons.mp ht
          exact absurd (hbyte.symm.trans hs.byte_end) hne
  | cons b s ih =>
      intro t p hs ht
      obtain ⟨-, hbyte, hne, hs'⟩ := cstr_cons.mp hs
      cases t with
      | nil => exact absurd (hbyte.symm.trans ht.byte_end) hne
      | cons c t =>
          obtain ⟨-, hbyte', -, ht'⟩ := cstr_cons.mp ht
          rw [← hbyte, hbyte', ih hs' ht']

end LearningLinux.Lib.ByteMem
