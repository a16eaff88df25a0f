import Mathlib.Data.Finset.Max
import Mathlib.Data.Fintype.Basic
import LearningLinux.Scheduler.Model

/-!
# Which process `schedule` selects

For any table whatever: the counters may be negative, since an interrupt that
comes while another one is handled still charges the process that runs. Such
counters are passed over by the selection, as its `greatest_ticks` starts from
zero, and a refill overwrites them.

A table that has an entry above zero has a first greatest one, and this one is
above zero as well; so one round of the loop is enough when there is a counter
left, and two are enough when there is a priority to refill from.
-/

namespace LearningLinux.Scheduler

variable {n : Nat} {f : Fin n → Int} {k : Kernel n}

theorem exists_firstGreatest (f : Fin n → Int) (q : Fin n) :
    ∃ r, FirstGreatest f r := by
  obtain ⟨m, hm, hmax⟩ := Finset.exists_max_image Finset.univ f ⟨q, by simp⟩
  -- among the greatest, the first
  obtain ⟨r, hr, hmin⟩ := Finset.exists_min_image
    (Finset.univ.filter fun p => f p = f m) id ⟨m, by simp⟩
  have hfr : f r = f m := (Finset.mem_filter.mp hr).2
  refine ⟨r, fun p => ?_⟩
  have hle : f p ≤ f r := hfr ▸ hmax p (Finset.mem_univ p)
  refine ⟨hle, fun hlt => lt_of_le_of_ne hle fun heq => ?_⟩
  have hrp : r ≤ p :=
    hmin p (Finset.mem_filter.mpr ⟨Finset.mem_univ p, heq.trans hfr⟩)
  exact absurd hlt (not_lt.mpr hrp)

/-- The first of the greatest is above zero if anything is. -/
theorem FirstGreatest.pos {r : Fin n} (h : FirstGreatest f r)
    (hpos : ∃ p, 0 < f p) : 0 < f r := by
  obtain ⟨p, hp⟩ := hpos
  exact lt_of_lt_of_le hp (h p).1

/-- What becomes of the loop, for every table. -/
theorem schedule_selects (k : Kernel n) :
    ((∃ p, 0 < k.ticksOf p) →
      ∃ r, FirstGreatest k.ticksOf r ∧
        ∃ fuel, scheduleLoop fuel k = some (k.setReady r)) ∧
    ((∀ p, k.ticksOf p ≤ 0) → (∃ p, 0 < k.priorityOf p) →
      ∃ r, FirstGreatest k.priorityOf r ∧
        ∃ fuel, scheduleLoop fuel k = some (k.refill.setReady r)) ∧
    ((∀ p, k.ticksOf p ≤ 0) → (∀ p, k.priorityOf p ≤ 0) →
      ∀ fuel, scheduleLoop fuel k = none) := by
  refine ⟨fun hticks => ?_, fun hzero hprio => ?_, fun hticks hprio fuel => ?_⟩
  · obtain ⟨r, hr⟩ := exists_firstGreatest k.ticksOf k.p_proc_ready
    exact ⟨r, hr, 2, schedule_pick hr (hr.pos hticks)⟩
  · obtain ⟨r, hr⟩ := exists_firstGreatest k.priorityOf k.p_proc_ready
    exact ⟨r, hr, 2, schedule_refill hzero hr (hr.pos hprio)⟩
  · exact scheduleLoop_stuck hticks hprio fuel

end LearningLinux.Scheduler
