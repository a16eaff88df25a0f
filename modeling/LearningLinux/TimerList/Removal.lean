import LearningLinux.TimerList.Ops

/-!
# Timers that leave the list

On a list in the order of the expiration times the timers that are due are
the first ones, and so the ones in front of the first that is not due, where
`tick` stops, are all of them. The list that `tick` empties keeps its `tail`,
which `Represents` then says nothing about.
-/

namespace LearningLinux.TimerList

open SortTimerLst

section Due

variable {ex : Nat → Int} {cur : Int} {l : List Nat}

theorem takeWhile_due (h : Ascending ex l) :
    (l.takeWhile fun a => ex a ≤ cur) = l.filter fun a => ex a ≤ cur := by
  induction l with
  | nil => rfl
  | cons a l ih =>
      obtain ⟨hle, hrest⟩ := List.pairwise_cons.mp h
      rw [List.takeWhile_cons, List.filter_cons, ih hrest]
      by_cases ha : ex a ≤ cur
      · rw [if_pos (by simpa using ha), if_pos (by simpa using ha)]
      · -- nothing behind `a` is due either
        have hnone : (l.filter fun b => ex b ≤ cur) = [] := by
          refine List.filter_eq_nil_iff.mpr fun b hb => ?_
          have := hle b hb
          simp only [decide_eq_true_iff]
          omega
        rw [if_neg (by simpa using ha), if_neg (by simpa using ha), hnone]

theorem dropWhile_due (h : Ascending ex l) :
    (l.dropWhile fun a => ex a ≤ cur) = l.filter fun a => cur < ex a := by
  induction l with
  | nil => rfl
  | cons a l ih =>
      obtain ⟨hle, hrest⟩ := List.pairwise_cons.mp h
      rw [List.dropWhile_cons, List.filter_cons]
      by_cases ha : ex a ≤ cur
      · rw [if_pos (by simpa using ha),
          if_neg (by simpa using ha), ih hrest]
      · have hall : (l.filter fun b => cur < ex b) = l := by
          refine List.filter_eq_self.mpr fun b hb => ?_
          have := hle b hb
          simp only [decide_eq_true_iff]
          omega
        rw [if_neg (by simpa using ha), if_pos (by simpa using ha), hall]

end Due

/-- `tick` calls back for the timers that are due, each of them once and in
the order of the list, and leaves the others; `del_timer` leaves all but the
one it is given. Neither follows a null pointer or a deleted one. -/
theorem removal_exact {s : SortTimerLst} {l : List Nat}
    (h : Represents s l) (hasc : Ascending s.expireOf l) :
    (∀ cur, ∃ s',
      tick cur s = some (s', l.filter fun a => s.expireOf a ≤ cur) ∧
      (l.filter fun a => s.expireOf a ≤ cur).Nodup ∧
      Represents s' (l.filter fun a => cur < s.expireOf a) ∧
      Ascending s'.expireOf (l.filter fun a => cur < s.expireOf a) ∧
      ∀ a ∈ l, cur < s.expireOf a → s'.expireOf a = s.expireOf a) ∧
    ∀ t ∈ l, ∃ s',
      delTimer s (some t) = some s' ∧
      s'.heap t = none ∧
      Represents s' (l.filter (· ≠ t)) ∧
      Ascending s'.expireOf (l.filter (· ≠ t)) ∧
      ∀ a, a ≠ t → s'.expireOf a = s.expireOf a := by
  constructor
  · intro cur
    obtain ⟨s', hrun, hrep, hexp⟩ := @tick_spec s l cur h
    rw [takeWhile_due hasc] at hrun
    rw [dropWhile_due hasc] at hrep hexp
    have hsorted := hasc.filter fun a => decide (cur < s.expireOf a)
    refine ⟨s', hrun, h.nodup.filter _, hrep, Ascending.congr hsorted hexp, ?_⟩
    exact fun a ha hlt => hexp a (List.mem_filter.mpr ⟨ha, by simpa using hlt⟩)
  · intro t ht
    obtain ⟨s', hrun, hrep, hwithout⟩ := delTimer_spec h ht
    have herase : l.erase t = l.filter (· ≠ t) := by
      rw [h.nodup.erase_eq_filter]
      exact List.filter_congr fun a _ => by rw [bne, beq_eq_decide, decide_not]
    rw [herase] at hrep
    have hsorted := hasc.filter fun a => decide (a ≠ t)
    refine ⟨s', hrun, hwithout.gone, hrep, Ascending.congr hsorted ?_,
      hwithout.expire⟩
    intro a ha
    exact hwithout.expire a (by simpa using (List.mem_filter.mp ha).2)

/-- Timers 2, 0 and 1, which expire at 3, 5 and 5, when the clock is at 4. -/
theorem removal_exact_three :
    let s : SortTimerLst :=
      { heap := fun a => [⟨5, some 2, some 1⟩, ⟨5, some 0, none⟩,
          ⟨3, none, some 0⟩][a]?
        numObjects := 3
        head := some 2
        tail := some 1 }
    (∃ s', tick 4 s = some (s', [2]) ∧ Represents s' [0, 1]) ∧
      ∃ s', delTimer s (some 0) = some s' ∧ Represents s' [2, 1] := by
  intro s
  have hrep : Represents s [2, 0, 1] :=
    ⟨by decide, by simp [s, Live], rfl, fun _ => rfl,
      ⟨rfl, rfl, rfl, rfl, rfl, rfl, trivial⟩, by decide⟩
  have hasc : Ascending s.expireOf [2, 0, 1] := by
    simp [Ascending, s, expireOf]
  obtain ⟨htick, hdel⟩ := removal_exact hrep hasc
  obtain ⟨s₁, hrun₁, -, hrep₁, -⟩ := htick 4
  obtain ⟨s₂, hrun₂, -, hrep₂, -⟩ := hdel 0 (by decide)
  exact ⟨⟨s₁, hrun₁, hrep₁⟩, s₂, hrun₂, hrep₂⟩

end LearningLinux.TimerList
