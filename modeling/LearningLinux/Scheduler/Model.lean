import Mathlib.Data.List.FinRange
import Mathlib.Data.List.Sort
import Mathlib.Logic.Function.Basic
import LearningLinux.Lib.Threads

/-!
# `schedule` and `clock_handler`

The scheduler of the kernels in `oranges/code`; `scheduler` and `io/cursor`
have the same two functions. The table has any number of entries, and a
pointer into it is an index. A clock interrupt comes with the value of
`k_reenter` it finds.

`refills` counts how often `schedule` has set the counters back. The variable
`ticks` counts interrupts for `sys_get_ticks` and is left out.
-/

namespace LearningLinux.Scheduler

open LearningLinux.Lib

/-- The two fields of `PROCESS` that the scheduler has to do with. -/
structure Process where
  ticks : Int
  priority : Int
deriving DecidableEq, Repr

structure Kernel (n : Nat) where
  proc_table : Fin n → Process
  p_proc_ready : Fin n
  refills : Nat

variable {n : Nat}

/-- The loop that looks for the greatest counter. -/
def pick (ticks : Fin n → Int) (start : Int × Fin n) : Int × Fin n :=
  (List.finRange n).foldl
    (fun best p => if ticks p > best.1 then (ticks p, p) else best) start

def Kernel.ticksOf (k : Kernel n) (p : Fin n) : Int := (k.proc_table p).ticks

def Kernel.priorityOf (k : Kernel n) (p : Fin n) : Int :=
  (k.proc_table p).priority

def Kernel.setReady (k : Kernel n) (p : Fin n) : Kernel n :=
  { k with
    p_proc_ready := p }

/-- The loop that sets the counters back. -/
def Kernel.refill (k : Kernel n) : Kernel n :=
  { k with
    proc_table := fun p => ⟨k.priorityOf p, k.priorityOf p⟩
    refills := k.refills + 1 }

/-- So many rounds of `while (!greatest_ticks)`. -/
def scheduleLoop : Nat → Kernel n → Option (Kernel n)
  | 0, _ => none
  | fuel + 1, k =>
      let best := pick k.ticksOf (0, k.p_proc_ready)
      if best.1 ≠ 0 then some (k.setReady best.2)
      else scheduleLoop fuel (k.setReady best.2).refill

/-- A second refill finds the counters as the first one left them, and so two
rounds are as good as any number. -/
def schedule (k : Kernel n) : Option (Kernel n) := scheduleLoop 2 k

/-- `p_proc_ready->ticks--;` -/
def Kernel.charge (k : Kernel n) : Kernel n :=
  { k with
    proc_table := Function.update k.proc_table k.p_proc_ready
      ⟨k.ticksOf k.p_proc_ready - 1, k.priorityOf k.p_proc_ready⟩ }

def clockHandler (k : Kernel n) (k_reenter : Int) : Option (Kernel n) :=
  let k := k.charge
  if k_reenter ≠ 0 then some k
  else if k.ticksOf k.p_proc_ready > 0 then some k
  else schedule k

/-! ## The selection -/

/-- `r` is the first one of the greatest. -/
def FirstGreatest (f : Fin n → Int) (r : Fin n) : Prop :=
  ∀ p, f p ≤ f r ∧ (p < r → f p < f r)

variable {f : Fin n → Int} {r : Fin n}

theorem FirstGreatest.unique {r' : Fin n} (h : FirstGreatest f r)
    (h' : FirstGreatest f r') : r = r' := by
  rcases lt_trichotomy r r' with hlt | heq | hlt
  · exact absurd ((h' r).2 hlt) (not_lt.mpr (h r').1)
  · exact heq
  · exact absurd ((h r').2 hlt) (not_lt.mpr (h' r).1)

/-- What the loop over part of the table comes out with. -/
theorem foldl_pick (l : List (Fin n)) (start : Int × Fin n) :
    (l.foldl (fun best p => if f p > best.1 then (f p, p) else best) start =
        start ∧ ∀ p ∈ l, f p ≤ start.1) ∨
    ∃ l₁ r l₂, l = l₁ ++ r :: l₂ ∧
      l.foldl (fun best p => if f p > best.1 then (f p, p) else best) start =
        (f r, r) ∧ start.1 < f r ∧ (∀ p ∈ l₁, f p < f r) ∧
      ∀ p ∈ l₂, f p ≤ f r := by
  induction l generalizing start with
  | nil => exact Or.inl ⟨rfl, nofun⟩
  | cons q l ih =>
      rw [List.foldl_cons]
      by_cases hq : f q > start.1
      · rw [if_pos hq]
        rcases ih (f q, q) with ⟨heq, hle⟩ | ⟨l₁, r, l₂, rfl, heq, hlt, h₁, h₂⟩
        · exact Or.inr ⟨[], q, l, rfl, heq, hq, nofun, hle⟩
        · refine Or.inr ⟨q :: l₁, r, l₂, rfl, heq, lt_trans hq hlt, ?_, h₂⟩
          intro p hp
          rcases List.mem_cons.mp hp with rfl | hp
          · exact hlt
          · exact h₁ p hp
      · rw [if_neg hq]
        rcases ih start with ⟨heq, hle⟩ | ⟨l₁, r, l₂, rfl, heq, hlt, h₁, h₂⟩
        · refine Or.inl ⟨heq, ?_⟩
          intro p hp
          rcases List.mem_cons.mp hp with rfl | hp
          · exact not_lt.mp hq
          · exact hle p hp
        · refine Or.inr ⟨q :: l₁, r, l₂, rfl, heq, hlt, ?_, h₂⟩
          intro p hp
          rcases List.mem_cons.mp hp with rfl | hp
          · exact lt_of_le_of_lt (not_lt.mp hq) hlt
          · exact h₁ p hp

/-- The loop finds the first of the greatest counters that are positive. -/
theorem pick_of_firstGreatest (h : FirstGreatest f r) (hpos : 0 < f r)
    (q : Fin n) : pick f (0, q) = (f r, r) := by
  rcases foldl_pick (f := f) (List.finRange n) (0, q) with
    ⟨-, hle⟩ | ⟨l₁, r', l₂, hl, heq, -, h₁, h₂⟩
  · exact absurd (hle r (List.mem_finRange r)) (not_le.mpr hpos)
  · have hsorted : (l₁ ++ r' :: l₂).Pairwise (· < ·) := by
      rw [← hl]
      exact List.pairwise_lt_finRange n
    have hfirst : FirstGreatest f r' := by
      intro p
      have hp := List.mem_finRange p
      rw [hl] at hp
      rcases List.mem_append.mp hp with hp | hp
      · exact ⟨(h₁ p hp).le, fun _ => h₁ p hp⟩
      · rcases List.mem_cons.mp hp with rfl | hp
        · exact ⟨le_refl _, fun hlt => absurd hlt (lt_irrefl _)⟩
        · have hlt := List.rel_of_pairwise_cons
            (List.pairwise_append.mp hsorted).2.1 hp
          exact ⟨h₂ p hp, fun hlt' => absurd hlt' (not_lt.mpr hlt.le)⟩
    rw [h.unique hfirst]
    exact heq

/-- With no positive counter the loop changes nothing. -/
theorem pick_of_nonpos (h : ∀ p, f p ≤ 0) (q : Fin n) :
    pick f (0, q) = (0, q) := by
  rcases foldl_pick (f := f) (List.finRange n) (0, q) with
    ⟨heq, -⟩ | ⟨-, r, -, -, -, hlt, -, -⟩
  · exact heq
  · exact absurd hlt (not_lt.mpr (h r))

theorem nonpos_of_pick {q : Fin n} (h : (pick f (0, q)).1 = 0) :
    ∀ p, f p ≤ 0 := by
  rcases foldl_pick (f := f) (List.finRange n) (0, q) with
    ⟨-, hle⟩ | ⟨-, r, -, -, heq, hlt, -, -⟩
  · exact fun p => hle p (List.mem_finRange p)
  · have hzero : f r = 0 := (congrArg Prod.fst heq).symm.trans h
    exact absurd hlt (by rw [hzero]; exact lt_irrefl _)

/-! ## `schedule` -/

variable {k : Kernel n}

theorem schedule_pick (h : FirstGreatest k.ticksOf r) (hpos : 0 < k.ticksOf r) :
    schedule k = some (k.setReady r) := by
  have hpick := pick_of_firstGreatest h hpos k.p_proc_ready
  rw [schedule, scheduleLoop]
  simp only [hpick]
  exact if_pos (ne_of_gt hpos)

theorem schedule_refill (hzero : ∀ p, k.ticksOf p ≤ 0)
    (h : FirstGreatest k.priorityOf r) (hpos : 0 < k.priorityOf r) :
    schedule k = some (k.refill.setReady r) := by
  have hnone := pick_of_nonpos hzero k.p_proc_ready
  have hpick : pick k.refill.ticksOf (0, k.refill.p_proc_ready) =
      (k.priorityOf r, r) := pick_of_firstGreatest h hpos _
  rw [schedule, scheduleLoop]
  simp only [hnone]
  rw [if_neg (fun hne => hne rfl)]
  show scheduleLoop 1 k.refill = _
  rw [scheduleLoop]
  simp only [hpick]
  exact if_pos (ne_of_gt hpos)

/-- With no positive priority the loop never ends. -/
theorem scheduleLoop_stuck (hticks : ∀ p, k.ticksOf p ≤ 0)
    (hprio : ∀ p, k.priorityOf p ≤ 0) (fuel : Nat) :
    scheduleLoop fuel k = none := by
  induction fuel generalizing k with
  | zero => rfl
  | succ fuel ih =>
      have hnone := pick_of_nonpos hticks k.p_proc_ready
      rw [scheduleLoop]
      simp only [hnone]
      rw [if_neg (fun hne => hne rfl)]
      exact ih hprio hprio

/-- More rounds than two change nothing. -/
theorem scheduleLoop_eq (fuel : Nat) (k : Kernel n) :
    scheduleLoop (fuel + 2) k = schedule k := by
  have hround (fuel : Nat) (k : Kernel n) : scheduleLoop (fuel + 1) k =
      if (pick k.ticksOf (0, k.p_proc_ready)).1 ≠ 0 then
        some (k.setReady (pick k.ticksOf (0, k.p_proc_ready)).2)
      else scheduleLoop fuel
        (k.setReady (pick k.ticksOf (0, k.p_proc_ready)).2).refill := rfl
  rw [schedule, hround (fuel + 1), hround 1]
  split
  · rfl
  rw [hround fuel, hround 0]
  split
  · rfl
  · next hfirst hsecond =>
      -- the priorities are not positive, and stay so
      have hprio := nonpos_of_pick (not_not.mp hsecond)
      refine scheduleLoop_stuck ?_ ?_ fuel
      · exact hprio
      · exact hprio

end LearningLinux.Scheduler
